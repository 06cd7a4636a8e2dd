import Std.Data.String.ToNat
import LockManager.Log
import LockManager.Proofs.Paths
import LockManager.Proofs.Regular

/-! The log tells everything. Its debug lines, read as records and carried out one after another
from nothing, give the locks of each resource and of each transaction and the queues, as the table
has them after each call. While a cascade is under way, the requests that were granted and have
still to commit stand ahead of the queue. -/
namespace LockManager

/-- What a debug line tells. -/
inductive Record
  | granted (lock : Lock)
  | replaced (lock : Lock) (previous : Mode)
  | released (lock : Lock)
  | queued (wanted : Lock) (place : Place)
  | served (txn : Txn) (resource : Resource)
  deriving DecidableEq

namespace Record

def line : Record → LogLine
  | granted lock =>
      ⟨.debug, "lock granted", [("txn", lock.owner.text), ("resource", lock.resource.text),
        ("lock_type", lock.mode.text)]⟩
  | replaced lock previous =>
      ⟨.debug, "lock replaced in place", [("txn", lock.owner.text),
        ("resource", lock.resource.text), ("from", previous.text), ("to", lock.mode.text)]⟩
  | released lock =>
      ⟨.debug, "lock released", [("txn", lock.owner.text), ("resource", lock.resource.text),
        ("lock_type", lock.mode.text)]⟩
  | queued wanted place =>
      ⟨.debug, "request queued", [("txn", wanted.owner.text), ("resource", wanted.resource.text),
        ("lock_type", wanted.mode.text), ("position", place.text)]⟩
  | served txn resource =>
      ⟨.debug, "queued request granted", [("txn", txn.text), ("resource", resource.text)]⟩

end Record

/-- The record of an event that has a debug line. -/
def Event.record? : Event → Option Record
  | granted lock => some (.granted lock)
  | replaced lock previous => some (.replaced lock previous)
  | released lock => some (.released lock)
  | queued request place _ => some (.queued request.lock place)
  | committed request => some (.served request.owner request.lock.resource)
  | conflict _ _ | staleRelease _ _ | prepared _ | woken _ | suspended _ => none

def Journal.records (journal : Journal) : List Record := journal.filterMap Event.record?

namespace Ledger

/-- Appends a lock of an owner that has none on its resource. -/
def append? (ledger : Ledger) (lock : Lock) : Option Ledger :=
  if ledger.any (·.sameGrant lock) then none else some (ledger ++ [lock])

/-- Changes the mode of a lock that has the given mode so far. -/
def amend? (ledger : Ledger) (lock : Lock) (previous : Mode) : Option Ledger :=
  let earlier := { lock with mode := previous }
  if earlier ∈ ledger then some (ledger.map fun held => if held = earlier then lock else held)
  else none

/-- Deletes a lock that is there. -/
def delete? (ledger : Ledger) (lock : Lock) : Option Ledger :=
  if lock ∈ ledger then some (ledger.filter (· ≠ lock)) else none

end Ledger

/-- What the records let one know of a table. -/
@[ext] structure Mirror where
  active : Resource → Ledger := fun _ => []
  held : Txn → Ledger := fun _ => []
  waiting : Resource → List (Txn × Mode) := fun _ => []

namespace Mirror

/-- Edits the list of the lock's resource and that of its owner in the same way. -/
def change? (mirror : Mirror) (lock : Lock) (edit : Ledger → Option Ledger) : Option Mirror := do
  let active ← edit (mirror.active lock.resource)
  let held ← edit (mirror.held lock.owner)
  return { mirror with
    active := fun resource => if resource = lock.resource then active else mirror.active resource
    held := fun txn => if txn = lock.owner then held else mirror.held txn }

/-- A request joins the queue of the resource it is for. -/
def join (mirror : Mirror) (wanted : Lock) (place : Place) : Mirror :=
  let entry := (wanted.owner, wanted.mode)
  { mirror with
    waiting := fun resource =>
      if resource = wanted.resource then
        match place with
        | .front => entry :: mirror.waiting resource
        | .back => mirror.waiting resource ++ [entry]
      else mirror.waiting resource }

/-- The first request of the transaction is out of the queue. -/
def leave (mirror : Mirror) (txn : Txn) (resource : Resource) : Mirror :=
  { mirror with
    waiting := fun other =>
      if other = resource then (mirror.waiting other).eraseP (·.1 = txn)
      else mirror.waiting other }

/-- Carries out a record, if it is applicable. -/
def carry? (mirror : Mirror) : Record → Option Mirror
  | .granted lock => mirror.change? lock (·.append? lock)
  | .replaced lock previous => mirror.change? lock (·.amend? lock previous)
  | .released lock => mirror.change? lock (·.delete? lock)
  | .queued wanted place => some (mirror.join wanted place)
  | .served txn resource =>
      if (mirror.waiting resource).any (·.1 = txn) then some (mirror.leave txn resource) else none

/-- Carries out records in order. A record that is not applicable ends the replay. -/
def replay? (mirror : Mirror) (records : List Record) : Option Mirror :=
  records.foldlM carry? mirror

end Mirror

/-- What the request's record tells of it. -/
def Request.wish (request : Request) : Txn × Mode := (request.owner, request.lock.mode)

/-- Ending with the caller's suspension leaves no record. -/
theorem Table.Opens.closing_unrecorded {table : Table} {txn : Txn} {call : Call} {stage : Stage}
    {closing : Journal} (opens : table.Opens txn call stage closing) :
    ∀ event ∈ closing, event.record? = none := by
  cases opens with
  | acquireGranted | exchangeGranted | releaseStarted | promoteGranted => simp
  | acquireQueued | exchangeQueued | promoteQueued => simp [Event.record?]

/-- What there is to know of a table from records. -/
def Table.mirror (table : Table) : Mirror :=
  ⟨table.locksOn, table.locksHeldBy, fun resource => (table.queueOf resource).map Request.wish⟩

/-! ### Lines -/

theorem Txn.text_inj {txn other : Txn} (same : txn.text = other.text) : txn = other := by
  have digits : txn.id.toNat.repr = other.id.toNat.repr := (String.append_right_inj "T").mp same
  have id : txn.id = other.id := UInt64.toNat.inj (Nat.repr_inj.mp digits)
  cases txn
  cases other
  exact congrArg Txn.mk id

theorem Mode.text_inj {mode other : Mode} (same : mode.text = other.text) : mode = other := by
  revert same
  cases mode <;> cases other <;> decide

theorem Place.text_inj {place other : Place} (same : place.text = other.text) : place = other := by
  revert same
  cases place <;> cases other <;> decide

namespace Record

theorem lock_eq {lock other : Lock} (owner : lock.owner.text = other.owner.text)
    (resource : lock.resource.text = other.resource.text)
    (mode : lock.mode.text = other.mode.text) : lock = other := by
  cases lock
  cases other
  cases Txn.text_inj owner
  cases Resource.text_inj resource
  cases Mode.text_inj mode
  rfl

/-- No two records are written in the same way. -/
theorem line_inj {record other : Record} (same : record.line = other.line) : record = other := by
  cases record <;> cases other <;> simp [line] at same
  case granted.granted => exact congrArg granted (lock_eq same.1 same.2.1 same.2.2)
  case replaced.replaced =>
    obtain ⟨owner, resource, previous, mode⟩ := same
    exact congrArg₂ replaced (lock_eq owner resource mode) (Mode.text_inj previous)
  case released.released => exact congrArg released (lock_eq same.1 same.2.1 same.2.2)
  case queued.queued =>
    obtain ⟨owner, resource, mode, place⟩ := same
    exact congrArg₂ queued (lock_eq owner resource mode) (Place.text_inj place)
  case served.served => exact congrArg₂ served (Txn.text_inj same.1) (Resource.text_inj same.2)

end Record

/-! ### Edits -/

namespace Ledger

variable {ledger : Ledger} {lock earlier : Lock}

theorem OneEach.eq_of_sameGrant (single : ledger.OneEach) {first second : Lock}
    (here : first ∈ ledger) (there : second ∈ ledger) (same : first.sameGrant second = true) :
    first = second := by
  obtain ⟨owner, resource⟩ := Lock.sameGrant_iff.mp same
  have found := single.find? here
  rw [owner, resource, single.find? there, Option.some.injEq] at found
  exact found.symm

theorem append?_of_fresh (fresh : ∀ held ∈ ledger, held.sameGrant lock = false) :
    ledger.append? lock = some (ledger.put lock) := by
  rw [append?, if_neg (by simpa using fresh), put_of_fresh fresh]

theorem OneEach.amend?_of_mem (single : ledger.OneEach) (known : earlier ∈ ledger)
    (same : earlier.sameGrant lock = true) :
    ledger.amend? lock earlier.mode = some (ledger.put lock) := by
  have shape : { lock with mode := earlier.mode } = earlier :=
    Lock.with_mode_of_sameGrant ((Lock.sameGrant_comm _ _).trans same)
  rw [amend?, shape, if_pos known, put_of_mem known same]
  congr 1
  refine List.map_congr_left fun held member => ?_
  by_cases equal : held = earlier
  · rw [if_pos equal, if_pos (equal ▸ same)]
  · rw [if_neg equal, if_neg fun grant => equal (single.eq_of_sameGrant member known ?_)]
    rw [Lock.sameGrant_congr grant, Lock.sameGrant_comm]
    exact same

theorem delete?_of_mem {keep : Lock → Bool} (known : lock ∈ ledger)
    (others : ∀ held ∈ ledger, keep held = true ↔ held ≠ lock) :
    ledger.delete? lock = some (ledger.filter keep) := by
  rw [delete?, if_pos known]
  congr 1
  refine List.filter_congr fun held member => ?_
  rw [Bool.eq_iff_iff, others held member, decide_eq_true_eq]

end Ledger

namespace Task

/-- The owners of the requests on the resource that have still to commit. -/
def committing (tasks : List Task) (resource : Resource) : List Txn :=
  tasks.filterMap fun
    | .commit request => if request.lock.resource = resource then some request.owner else none
    | .drain _ | .release _ _ | .deferred _ _ => none

theorem committing_append (first second : List Task) (resource : Resource) :
    committing (first ++ second) resource =
      committing first resource ++ committing second resource :=
  List.filterMap_append

theorem committing_afterGrant (request : Request) (resource other : Resource) :
    committing (afterGrant request resource) other =
      if request.lock.resource = other then [request.owner] else [] := by
  have deferred (locks : List Lock) : committing (locks.map (.deferred request)) other = [] := by
    simp [committing]
  rw [afterGrant, committing_append, deferred, List.nil_append]
  by_cases here : request.lock.resource = other <;> simp [committing, here]

end Task

/-- The mirror shows the table's grants. Ahead of a queue it has those whose commits are left. -/
structure Mirrors (mirror : Mirror) (table : Table) (tasks : List Task) : Prop where
  active : ∀ resource, mirror.active resource = table.locksOn resource
  held : ∀ txn, mirror.held txn = table.locksHeldBy txn
  waiting : ∀ resource, ∃ served,
    mirror.waiting resource = served ++ (table.queueOf resource).map Request.wish ∧
      (served.map Prod.fst).Perm (Task.committing tasks resource)

/-- The records of the journal are all applicable, and the mirror then shows the table. -/
def Mirror.Follows (mirror : Mirror) (journal : Journal) (table : Table) (tasks : List Task) :
    Prop :=
  ∃ after, mirror.replay? journal.records = some after ∧ Mirrors after table tasks

namespace Mirror.Follows

variable {mirror : Mirror} {table after : Table} {tasks now : List Task}

theorem silent {journal : Journal} (mirrors : Mirrors mirror table tasks)
    (quiet : ∀ event ∈ journal, event.record? = none) : mirror.Follows journal table tasks := by
  have none : journal.records = [] := List.filterMap_eq_nil_iff.mpr quiet
  exact ⟨mirror, by rw [none]; rfl, mirrors⟩

theorem append {first second : Journal} (start : mirror.Follows first table tasks)
    (rest : ∀ middle, Mirrors middle table tasks → Mirror.Follows middle second after now) :
    mirror.Follows (first ++ second) after now := by
  obtain ⟨middle, replayed, mirrors⟩ := start
  obtain ⟨last, further, shown⟩ := rest middle mirrors
  refine ⟨last, ?_, shown⟩
  rw [Journal.records, List.filterMap_append, replay?, List.foldlM_append, ← replay?,
    ← Journal.records, replayed]
  exact further

theorem single {event : Event} {record : Record} {last : Mirror}
    (told : event.record? = some record) (applied : mirror.carry? record = some last)
    (mirrors : Mirrors last table tasks) :
    mirror.Follows [event] table tasks := by
  refine ⟨last, ?_, mirrors⟩
  simp [Journal.records, told, replay?, applied]

end Mirror.Follows

namespace Mirrors
open Mirror.Follows

variable {mirror : Mirror} {table after : Table} {tasks : List Task} {ledger : Ledger}

theorem mirror_eq (mirrors : Mirrors mirror table []) : mirror = table.mirror := by
  ext1
  · exact funext mirrors.active
  · exact funext mirrors.held
  · funext resource
    obtain ⟨served, shown, all⟩ := mirrors.waiting resource
    obtain rfl : served = [] := List.map_eq_nil_iff.mp all.eq_nil
    exact shown

/-- What is not recorded changes nothing to be seen. -/
theorem of_views {now : List Task} (mirrors : Mirrors mirror table tasks)
    (active : ∀ resource, after.locksOn resource = table.locksOn resource)
    (held : ∀ txn, after.locksHeldBy txn = table.locksHeldBy txn)
    (queues : ∀ resource, after.queueOf resource = table.queueOf resource)
    (committing : ∀ resource, Task.committing now resource = Task.committing tasks resource) :
    Mirrors mirror after now where
  active resource := (mirrors.active resource).trans (active resource).symm
  held txn := (mirrors.held txn).trans (held txn).symm
  waiting resource := by
    rw [queues, committing]
    exact mirrors.waiting resource

/-- The same edit on both sides of the mirror shows a change of one lock. -/
theorem change (mirrors : Mirrors mirror table tasks) (after : Table) (lock : Lock)
    (edit : Ledger → Option Ledger)
    (active : edit (table.locksOn lock.resource) = some (after.locksOn lock.resource))
    (held : edit (table.locksHeldBy lock.owner) = some (after.locksHeldBy lock.owner))
    (elsewhere : ∀ resource, resource ≠ lock.resource →
      after.locksOn resource = table.locksOn resource)
    (others : ∀ txn, txn ≠ lock.owner → after.locksHeldBy txn = table.locksHeldBy txn)
    (queues : ∀ resource, after.queueOf resource = table.queueOf resource) :
    ∃ last, mirror.change? lock edit = some last ∧ Mirrors last after tasks := by
  refine ⟨_, by simp only [Mirror.change?, mirrors.active, mirrors.held, active, held]; rfl, ?_⟩
  refine ⟨fun resource => ?_, fun txn => ?_, fun resource => ?_⟩
  · dsimp only
    split
    · next same => rw [same]
    · next other => exact (elsewhere resource other).symm
  · dsimp only
    split
    · next same => rw [same]
    · next other => exact (others txn other).symm
  · rw [queues]
    exact mirrors.waiting resource

theorem grant (mirrors : Mirrors mirror table tasks) (books : Books ledger table) (lock : Lock) :
    mirror.Follows [table.grantEvent lock] (table.grant lock) tasks := by
  have elsewhere : ∀ resource, resource ≠ lock.resource →
      (table.grant lock).locksOn resource = table.locksOn resource :=
    fun _ other => table.locksOn_grant_of_ne other
  have others : ∀ txn, txn ≠ lock.owner →
      (table.grant lock).locksHeldBy txn = table.locksHeldBy txn := fun txn other => by
    rw [books.locksHeldBy_grant, if_neg other]
  have queues := table.queueOf_grant lock
  have here : (table.grant lock).locksOn lock.resource =
      Ledger.put (table.locksOn lock.resource) lock := by
    rw [books.locksOn_grant, if_pos rfl]
  have mine : (table.grant lock).locksHeldBy lock.owner =
      Ledger.put (table.locksHeldBy lock.owner) lock := by
    rw [books.locksHeldBy_grant, if_pos rfl]
  by_cases present : ∃ held ∈ ledger, held.sameGrant lock = true
  · obtain ⟨earlier, known, same⟩ := present
    obtain ⟨owner, resource⟩ := Lock.sameGrant_iff.mp same
    have active := books.mem_locksOn.mpr ⟨known, resource⟩
    have held := books.mem_locksHeldBy.mpr ⟨known, owner⟩
    have onResource : Ledger.OneEach (table.locksOn lock.resource) :=
      books.active lock.resource ▸ books.single.sublist List.filter_sublist
    have ofOwner : Ledger.OneEach (table.locksHeldBy lock.owner) :=
      books.held lock.owner ▸ books.single.sublist List.filter_sublist
    obtain ⟨last, applied, shown⟩ :=
      mirrors.change (table.grant lock) lock (·.amend? lock earlier.mode)
        (by rw [here]; exact onResource.amend?_of_mem active same)
        (by rw [mine]; exact ofOwner.amend?_of_mem held same) elsewhere others queues
    rw [Table.grantEvent, books.lockOf?_of_mem known same]
    exact .single rfl applied shown
  · have fresh : ∀ held ∈ ledger, held.sameGrant lock = false := by simpa using present
    obtain ⟨last, applied, shown⟩ :=
      mirrors.change (table.grant lock) lock (·.append? lock)
        (by rw [here]; exact Ledger.append?_of_fresh fun held member =>
              fresh held (books.mem_locksOn.mp member).1)
        (by rw [mine]; exact Ledger.append?_of_fresh fun held member =>
              fresh held (books.mem_locksHeldBy.mp member).1) elsewhere others queues
    rw [Table.grantEvent, books.lockOf?_of_fresh fresh]
    exact .single rfl applied shown

theorem remove (mirrors : Mirrors mirror table tasks) (books : Books ledger table) (txn : Txn)
    (resource : Resource) :
    mirror.Follows (((table.entry resource).lockOf? txn).toList.map .released)
      (table.remove txn resource) tasks := by
  have elsewhere : ∀ other, other ≠ resource →
      (table.remove txn resource).locksOn other = table.locksOn other :=
    fun _ different => table.locksOn_remove_of_ne txn different
  have others : ∀ other, other ≠ txn →
      (table.remove txn resource).locksHeldBy other = table.locksHeldBy other := by
    intro other different
    rw [Table.locksHeldBy_remove, if_neg different]
  have queues := table.queueOf_remove txn resource
  have here : (table.remove txn resource).locksOn resource =
      (table.locksOn resource).filter fun held => held.owner ≠ txn :=
    books.locksOn_remove txn resource
  have mine : (table.remove txn resource).locksHeldBy txn =
      (table.locksHeldBy txn).filter fun held => held.resource ≠ resource := by
    rw [Table.locksHeldBy_remove, if_pos rfl]
  cases found : (table.entry resource).lockOf? txn with
  | none =>
    rw [books.lockOf?, ← books.heldLock?] at found
    have absent := books.absent_of_heldLock? found
    refine silent (mirrors.of_views (fun other => ?_) (fun other => ?_) queues fun _ => rfl)
      (by simp)
    · by_cases same : other = resource
      · subst same
        rw [here]
        refine List.filter_eq_self.mpr fun held member => ?_
        obtain ⟨known, placed⟩ := books.mem_locksOn.mp member
        simpa using fun owned => absent held known owned placed
      · exact elsewhere other same
    · by_cases same : other = txn
      · subst same
        rw [mine]
        refine List.filter_eq_self.mpr fun held member => ?_
        obtain ⟨known, owned⟩ := books.mem_locksHeldBy.mp member
        simpa using absent held known owned
      · exact others other same
  | some lock =>
    rw [books.lockOf?, ← books.heldLock?] at found
    obtain ⟨known, rfl, rfl⟩ := books.mem_of_heldLock? found
    have only {held : Lock} (member : held ∈ ledger) (owner : held.owner = lock.owner)
        (placed : held.resource = lock.resource) : held = lock :=
      books.single.eq_of_sameGrant member known (Lock.sameGrant_iff.mpr ⟨owner, placed⟩)
    obtain ⟨last, applied, shown⟩ :=
      mirrors.change (table.remove lock.owner lock.resource) lock (·.delete? lock)
        (by
          rw [here]
          refine Ledger.delete?_of_mem (books.mem_locksOn.mpr ⟨known, rfl⟩) fun held member => ?_
          obtain ⟨entered, placed⟩ := books.mem_locksOn.mp member
          rw [decide_eq_true_eq]
          exact not_congr ⟨fun owner => only entered owner placed, fun same => same ▸ rfl⟩)
        (by
          rw [mine]
          refine Ledger.delete?_of_mem (books.mem_locksHeldBy.mpr ⟨known, rfl⟩)
            fun held member => ?_
          obtain ⟨entered, owner⟩ := books.mem_locksHeldBy.mp member
          rw [decide_eq_true_eq]
          exact not_congr ⟨fun placed => only entered owner placed, fun same => same ▸ rfl⟩)
        elsewhere others queues
    exact .single rfl applied shown

/-- The next in line leaves the queue and has its commit ahead. -/
theorem dequeue {resource : Resource} {request : Request} {rest : List Request}
    (mirrors : Mirrors mirror table (.drain resource :: tasks))
    (head : table.queueOf resource = request :: rest) (here : request.lock.resource = resource) :
    Mirrors mirror (table.dequeue resource) (Task.afterGrant request resource ++ tasks) where
  active other := (mirrors.active other).trans (table.locksOn_dequeue resource other).symm
  held := mirrors.held
  waiting other := by
    obtain ⟨served, shown, all⟩ := mirrors.waiting other
    have left : Task.committing (.drain resource :: tasks) other =
        Task.committing tasks other := rfl
    rw [left] at all
    rw [Table.queueOf_dequeue, Task.committing_append, Task.committing_afterGrant, here]
    by_cases same : other = resource
    · subst same
      rw [if_pos rfl, if_pos rfl, head, List.tail_cons]
      rw [head] at shown
      refine ⟨served ++ [request.wish], by simpa using shown, ?_⟩
      rw [List.map_append]
      exact (List.perm_append_comm).trans (all.append_left [request.owner])
    · rw [if_neg same, if_neg (Ne.symm same)]
      exact ⟨served, shown, all⟩

/-- A commit strikes out a request that was granted, not one that still waits. -/
theorem commit {request : Request} (mirrors : Mirrors mirror table (.commit request :: tasks)) :
    mirror.Follows [.committed request] table tasks := by
  obtain ⟨served, shown, all⟩ := mirrors.waiting request.lock.resource
  have due : Task.committing (.commit request :: tasks) request.lock.resource =
      request.owner :: Task.committing tasks request.lock.resource := by
    simp [Task.committing]
  rw [due] at all
  obtain ⟨entry, member, owner⟩ := List.mem_map.mp (all.symm.subset List.mem_cons_self)
  have present : (mirror.waiting request.lock.resource).any (·.1 = request.owner) = true := by
    rw [shown, List.any_append, Bool.or_eq_true]
    exact .inl (List.any_eq_true.mpr ⟨entry, member, decide_eq_true owner⟩)
  have applied : mirror.carry? (.served request.owner request.lock.resource) =
      some (mirror.leave request.owner request.lock.resource) := if_pos present
  refine .single rfl applied ⟨mirrors.active, mirrors.held, fun resource => ?_⟩
  dsimp only [Mirror.leave]
  by_cases same : resource = request.lock.resource
  · subst same
    refine ⟨served.eraseP (·.1 = request.owner), ?_, ?_⟩
    · rw [if_pos rfl, shown]
      have struck : served.any (·.1 = request.owner) = true :=
        List.any_eq_true.mpr ⟨entry, member, decide_eq_true owner⟩
      rw [List.eraseP_append, if_pos struck]
    · have struck : (served.eraseP (·.1 = request.owner)).map Prod.fst =
          (served.map Prod.fst).erase request.owner := by
        rw [List.erase_eq_eraseP', List.eraseP_map]
        rfl
      rw [struck]
      simpa using all.erase request.owner
  · obtain ⟨others, told, rest⟩ := mirrors.waiting resource
    have left : Task.committing (.commit request :: tasks) resource =
        Task.committing tasks resource := by
      simp [Task.committing, Ne.symm same]
    exact ⟨others, by rw [if_neg same, told], left ▸ rest⟩

theorem moves {task : Task} {done : Step} (mirrors : Mirrors mirror table (task :: tasks))
    (regular : table.Regular) (move : table.Moves task done) :
    mirror.Follows done.events done.table (done.next ++ tasks) := by
  obtain ⟨ledger, books⟩ := regular.books
  cases move with
  | rests blocked conflicts =>
    refine silent (mirrors.of_views (fun _ => table.locksOn_prune _ _)
      (fun _ => table.locksHeldBy_prune _ _) (fun _ => table.queueOf_prune _ _) fun _ => rfl)
      fun event member => ?_
    obtain ⟨mode, held, rfl⟩ := conflicts event member
    rfl
  | @serves resource request rest head fits =>
    have taken := mirrors.dequeue head (regular.filed_head head).here
    exact taken.grant (books.dequeue resource) request.lock
  | @gives txn resource =>
    have left : Mirrors mirror table (.drain resource :: tasks) :=
      mirrors.of_views (fun _ => rfl) (fun _ => rfl) (fun _ => rfl) fun _ => rfl
    exact left.remove books txn resource
  | defers | skips =>
    exact silent (mirrors.of_views (fun _ => rfl) (fun _ => rfl) (fun _ => rfl) fun _ => rfl)
      (by simp [Event.record?])
  | @completes request =>
    have woken : ∀ middle, Mirrors middle table tasks →
        middle.Follows [.woken request.caller] table tasks :=
      fun middle shown => silent shown (by simp [Event.record?])
    exact mirrors.commit.append woken

theorem enqueue (mirrors : Mirrors mirror table []) (request : Request) (place : Place)
    (now : List Task) (quiet : ∀ resource, Task.committing now resource = []) :
    mirror.Follows (table.noteConflict request.lock ++ (table.wait request place).events)
      (table.enqueue request place) now := by
  have conflict : mirror.Follows (table.noteConflict request.lock) table [] := by
    refine silent mirrors fun event member => ?_
    obtain ⟨held, -, rfl⟩ := List.mem_map.mp member
    rfl
  refine conflict.append fun middle shown => ?_
  obtain rfl := shown.mirror_eq
  refine ⟨table.mirror.join request.lock place, rfl, fun resource => ?_, fun _ => rfl,
    fun resource => ⟨[], ?_, by rw [quiet]; exact .nil⟩⟩
  · exact (table.locksOn_enqueue request place resource).symm
  · rw [List.nil_append, Table.queueOf_enqueue, Mirror.join]
    by_cases here : resource = request.lock.resource
    · subst here
      cases place <;> simp [Table.mirror, Request.wish, Request.owner]
    · simp [here, Table.mirror]

theorem opens {txn : Txn} {call : Call} {stage : Stage} {closing : Journal}
    (mirrors : Mirrors mirror table []) (regular : table.Regular)
    (opens : table.Opens txn call stage closing) :
    mirror.Follows stage.journal stage.table stage.tasks := by
  obtain ⟨ledger, books⟩ := regular.books
  have scheduled {now : List Task} (quiet : ∀ resource, Task.committing now resource = []) :
      Mirrors mirror table now :=
    mirrors.of_views (fun _ => rfl) (fun _ => rfl) (fun _ => rfl) quiet
  cases opens with
  | acquireGranted | promoteGranted => exact mirrors.grant books _
  | @exchangeGranted resource mode names locks =>
    have releases : ∀ other,
        Task.committing (locks.map fun held => .release txn held.resource) other = [] := by
      simp [Task.committing]
    exact (scheduled releases).grant books _
  | acquireQueued | promoteQueued => exact mirrors.enqueue ⟨txn, ⟨_, _, txn⟩, _⟩ _ [] fun _ => rfl
  | exchangeQueued => exact mirrors.enqueue ⟨txn, ⟨_, _, txn⟩, _⟩ _ [.drain _] fun _ => rfl
  | releaseStarted => exact silent (scheduled fun _ => rfl) (by simp)

theorem take (mirrors : Mirrors mirror table []) (regular : table.Regular) (turn : Turn) :
    mirror.Follows (table.take turn).events (table.take turn).table [] := by
  refine Table.take_cases (motive := fun after => mirror.Follows after.events after.table []) table
    turn (silent mirrors (by simp)) fun stage closing started => ?_
  have both : stage.settled.table.Regular ∧
      mirror.Follows stage.settled.events stage.settled.table [] :=
    stage.leads_settled.invariant
      (motive := fun table journal tasks => table.Regular ∧ mirror.Follows journal table tasks)
      (fun before move => ⟨before.1.moves move,
        before.2.append fun middle shown => shown.moves before.1 move⟩)
      ⟨regular.opens started, mirrors.opens regular started⟩
  exact both.2.append fun middle shown => silent shown started.closing_unrecorded

theorem run (mirrors : Mirrors mirror table []) (regular : table.Regular) (turns : List Turn) :
    mirror.Follows (table.journal turns) (table.run turns) [] := by
  induction turns generalizing mirror table with
  | nil => exact silent mirrors (by simp [Table.journal])
  | cons turn later ih =>
    exact (mirrors.take regular turn).append fun middle shown => ih shown (regular.take turn)

theorem empty : Mirrors {} Table.empty [] :=
  ⟨fun _ => by simp [Table.locksOn], fun _ => by simp, fun _ => ⟨[], by simp [Table.queueOf], .nil⟩⟩

end Mirrors

/-- The debug line of an event is that of its record. -/
theorem Event.debug_lines (event : Event) (longQueue : Nat) :
    (event.logLines longQueue).filter (fun line => line.level = .debug) =
      event.record?.toList.map Record.line := by
  cases event with
  | queued request place length =>
    simp only [logLines]
    split <;> rfl
  | _ => rfl

theorem Journal.debug_log (journal : Journal) (longQueue : Nat) :
    (journal.log longQueue .debug).filter (fun line => line.level = .debug) =
      journal.records.map Record.line := by
  have shown : ∀ line : LogLine, (decide (line.level = .debug) && line.level.shownAt .debug) =
      decide (line.level = .debug) := by
    rintro ⟨level, message, fields⟩
    cases level <;> rfl
  rw [log, List.filter_filter]
  simp only [shown]
  induction journal with
  | nil => rfl
  | cons event later ih =>
    rw [List.flatMap_cons, List.filter_append, ih, Event.debug_lines, records, records,
      List.filterMap_cons]
    cases event.record? <;> rfl

/-- After any run the table can be rebuilt from nothing but the debug lines of its log. They are the
lines of these records and of no others; each record is applicable in its turn, and together they
give the locks on each resource, the locks of each transaction and the queues. -/
theorem replay_rebuilds_table (turns : List Turn) :
    Mirror.replay? {} (Table.empty.journal turns).records = some (Table.empty.run turns).mirror ∧
      ∀ longQueue told, ((Table.empty.journal turns).log longQueue .debug).filter
          (fun line => line.level = .debug) = told.map Record.line ↔
        told = (Table.empty.journal turns).records := by
  obtain ⟨last, replayed, shown⟩ := Mirrors.empty.run .empty turns
  refine ⟨replayed.trans (congrArg some shown.mirror_eq), fun longQueue told => ?_⟩
  rw [Journal.debug_log, List.map_inj_right fun _ _ same => Record.line_inj same, eq_comm]

end LockManager
