import LockManager.Proofs.Run

/-! One list of all grants, oldest first, behind the two views of the table. The locks on a
resource and the locks of a transaction are its sublists, in its order. The journal tells how it
changes: a new grant goes to the end, a change of mode happens where the lock stands, and a
released lock is struck out. -/
namespace LockManager
open Std

theorem Lock.sameGrant_iff {a b : Lock} :
    a.sameGrant b = true ↔ a.owner = b.owner ∧ a.resource = b.resource := by
  simp [sameGrant]

theorem Lock.sameGrant_comm (a b : Lock) : a.sameGrant b = b.sameGrant a := by
  simp only [sameGrant, eq_comm]

/-- A grant in another mode is the other lock. -/
theorem Lock.with_mode_of_sameGrant {a b : Lock} (same : a.sameGrant b = true) :
    { a with mode := b.mode } = b := by
  obtain ⟨owner, resource⟩ := sameGrant_iff.mp same
  cases a; cases b; simp_all

theorem Lock.sameGrant_congr {a b : Lock} (same : a.sameGrant b = true) (other : Lock) :
    a.sameGrant other = b.sameGrant other := by
  obtain ⟨owner, resource⟩ := sameGrant_iff.mp same
  rw [sameGrant, sameGrant, owner, resource]

abbrev Ledger := List Lock

namespace Ledger

/-- A transaction has at most one lock on a resource. -/
def OneEach (ledger : Ledger) : Prop := ledger.Pairwise fun a b => a.sameGrant b = false

/-- Enters a grant: in the place of the earlier one, or at the end. -/
def put (ledger : Ledger) (lock : Lock) : Ledger :=
  if ledger.any (·.sameGrant lock) then
    ledger.map fun held => if held.sameGrant lock then lock else held
  else ledger ++ [lock]

def strike (ledger : Ledger) (txn : Txn) (resource : Resource) : Ledger :=
  ledger.filter fun held => !(held.owner = txn ∧ held.resource = resource)

def note (ledger : Ledger) : Event → Ledger
  | .granted lock | .replaced lock _ => ledger.put lock
  | .released lock => ledger.strike lock.owner lock.resource
  | _ => ledger

def replay (ledger : Ledger) (journal : Journal) : Ledger := journal.foldl note ledger

end Ledger

def Event.changesGrants : Event → Bool
  | granted _ | replaced _ _ | released _ => true
  | _ => false

/-- What an event may do to the list of grants. -/
inductive Ledger.Edit : Ledger → Event → Ledger → Prop
  | append {ledger : Ledger} (lock : Lock)
      (fresh : ∀ held ∈ ledger, held.sameGrant lock = false) :
      Edit ledger (.granted lock) (ledger ++ [lock])
  | amend (before after : Ledger) (lock : Lock) (previous : Mode) :
      Edit (before ++ { lock with mode := previous } :: after) (.replaced lock previous)
        (before ++ lock :: after)
  | delete (before after : Ledger) (lock : Lock) :
      Edit (before ++ lock :: after) (.released lock) (before ++ after)
  | silent {event : Event} (ledger : Ledger) (other : event.changesGrants = false) :
      Edit ledger event ledger

/-- The events of a journal, each with its edit. -/
inductive Ledger.Edits : Ledger → Journal → Ledger → Prop
  | done (ledger : Ledger) : Edits ledger [] ledger
  | next {ledger middle last : Ledger} {event : Event} {later : Journal}
      (edit : Edit ledger event middle) (rest : Edits middle later last) :
      Edits ledger (event :: later) last

namespace Ledger

theorem Edits.append {first middle last : Ledger} {before after : Journal}
    (start : Edits first before middle) (rest : Edits middle after last) :
    Edits first (before ++ after) last := by
  induction start with
  | done => exact rest
  | next edit _ ih => exact .next edit (ih rest)

theorem Edits.silent (ledger : Ledger) {journal : Journal}
    (other : ∀ event ∈ journal, event.changesGrants = false) : Edits ledger journal ledger := by
  induction journal with
  | nil => exact .done ledger
  | cons event later ih =>
    have rest := ih fun event member => other event (List.mem_cons_of_mem _ member)
    exact .next (.silent ledger (other event List.mem_cons_self)) rest

theorem replay_append (ledger : Ledger) (first second : Journal) :
    ledger.replay (first ++ second) = (ledger.replay first).replay second :=
  List.foldl_append

theorem replay_silent (ledger : Ledger) {journal : Journal}
    (other : ∀ event ∈ journal, event.changesGrants = false) : ledger.replay journal = ledger := by
  induction journal with
  | nil => rfl
  | cons event later ih =>
    have same : ledger.note event = ledger := by
      have quiet := other event List.mem_cons_self
      cases event <;> first | rfl | cases quiet
    rw [replay, List.foldl_cons, same]
    exact ih fun event member => other event (List.mem_cons_of_mem _ member)

/-! ### Entering and striking -/

theorem put_of_fresh {ledger : Ledger} {lock : Lock}
    (fresh : ∀ held ∈ ledger, held.sameGrant lock = false) :
    ledger.put lock = ledger ++ [lock] := by
  rw [put, if_neg]
  simpa using fresh

theorem put_of_mem {ledger : Ledger} {lock held : Lock} (member : held ∈ ledger)
    (same : held.sameGrant lock = true) :
    ledger.put lock = ledger.map fun held => if held.sameGrant lock then lock else held := by
  rw [put, if_pos]
  exact List.any_eq_true.mpr ⟨held, member, same⟩

theorem mem_put {ledger : Ledger} {lock held : Lock} (member : held ∈ ledger.put lock) :
    held = lock ∨ held ∈ ledger ∧ held.sameGrant lock = false := by
  unfold put at member
  split at member
  · obtain ⟨earlier, known, rfl⟩ := List.mem_map.mp member
    by_cases same : earlier.sameGrant lock = true
    · exact .inl (if_pos same)
    · rw [if_neg same]
      exact .inr ⟨known, by simpa using same⟩
  · next fresh =>
    rcases List.mem_append.mp member with known | added
    · exact .inr ⟨known, by simpa using (List.any_eq_false.mp (by simpa using fresh)) held known⟩
    · exact .inl (List.mem_singleton.mp added)

theorem lock_mem_put (ledger : Ledger) (lock : Lock) : lock ∈ ledger.put lock := by
  unfold put
  split
  · next present =>
    obtain ⟨held, known, same⟩ := List.any_eq_true.mp present
    exact List.mem_map.mpr ⟨held, known, if_pos same⟩
  · simp

/-- Entering a grant leaves the other grants. -/
theorem mem_put_of_mem {ledger : Ledger} {lock held : Lock} (known : held ∈ ledger)
    (other : held.sameGrant lock = false) : held ∈ ledger.put lock := by
  unfold put
  split
  · exact List.mem_map.mpr ⟨held, known, by simp [other]⟩
  · exact List.mem_append_left _ known

/-- A view that does not look at modes shows a grant entered in the view itself, if at all. -/
theorem filter_put (ledger : Ledger) (lock : Lock) (view : Lock → Bool)
    (blind : ∀ held, held.sameGrant lock = true → view held = view lock) :
    (ledger.put lock).filter view =
      if view lock then Ledger.put (ledger.filter view) lock else ledger.filter view := by
  by_cases present : ∃ held ∈ ledger, held.sameGrant lock = true
  · obtain ⟨held, known, same⟩ := present
    have unseen : (view ∘ fun held : Lock => if held.sameGrant lock then lock else held) = view := by
      funext other
      simp only [Function.comp_apply]
      split
      · next equal => exact (blind other equal).symm
      · rfl
    rw [put_of_mem known same, List.filter_map, unseen]
    split
    · next shown =>
      exact (put_of_mem (List.mem_filter.mpr ⟨known, (blind held same).trans shown⟩) same).symm
    · next hidden =>
      refine (List.map_congr_left fun other member => ?_).trans (List.map_id _)
      obtain ⟨-, shown⟩ := List.mem_filter.mp member
      refine if_neg fun equal => hidden ?_
      rw [← blind other equal, shown]
  · have fresh : ∀ held ∈ ledger, held.sameGrant lock = false := by simpa using present
    have kept : ∀ held ∈ ledger.filter view, held.sameGrant lock = false :=
      fun held member => fresh held (List.mem_filter.mp member).1
    rw [put_of_fresh fresh, List.filter_append, put_of_fresh kept]
    split <;> simp [*]

theorem strike_of_absent {ledger : Ledger} {txn : Txn} {resource : Resource}
    (absent : ∀ held ∈ ledger, held.owner = txn → held.resource ≠ resource) :
    ledger.strike txn resource = ledger :=
  List.filter_eq_self.mpr fun held member => by
    simpa [Decidable.imp_iff_not_or] using absent held member

/-! ### At most one grant of a kind -/

theorem OneEach.others {before after : Ledger} {lock : Lock}
    (single : OneEach (before ++ lock :: after)) :
    (∀ held ∈ before, held.sameGrant lock = false) ∧
      ∀ held ∈ after, held.sameGrant lock = false := by
  obtain ⟨-, behind, across⟩ := List.pairwise_append.mp single
  refine ⟨fun held member => across held member lock List.mem_cons_self, fun held member => ?_⟩
  rw [Lock.sameGrant_comm]
  exact (List.pairwise_cons.mp behind).1 held member

theorem OneEach.put {ledger : Ledger} (single : ledger.OneEach) (lock : Lock) :
    (ledger.put lock).OneEach := by
  by_cases present : ∃ held ∈ ledger, held.sameGrant lock = true
  · obtain ⟨held, known, same⟩ := present
    rw [put_of_mem known same, OneEach, List.pairwise_map]
    have unmoved (held other : Lock) :
        (if held.sameGrant lock then lock else held).sameGrant other = held.sameGrant other := by
      split
      · next equal => exact (Lock.sameGrant_congr equal other).symm
      · rfl
    apply single.imp
    intro a b distinct
    rw [unmoved, Lock.sameGrant_comm, unmoved, Lock.sameGrant_comm, distinct]
  · have fresh : ∀ held ∈ ledger, held.sameGrant lock = false := by simpa using present
    rw [put_of_fresh fresh]
    refine List.pairwise_append.mpr ⟨single, List.pairwise_singleton _ _, ?_⟩
    intro held member added last
    rw [List.mem_singleton.mp last]
    exact fresh held member

theorem OneEach.strike {ledger : Ledger} (single : ledger.OneEach) (txn : Txn)
    (resource : Resource) : (ledger.strike txn resource).OneEach :=
  single.sublist List.filter_sublist

/-- Among the locks on one resource, none but the first of an owner is the owner's. -/
theorem OneEach.owner_once {locks : Ledger} (single : locks.OneEach) {resource : Resource}
    (placed : ∀ held ∈ locks, held.resource = resource) (txn : Txn) :
    locks.Pairwise fun a b => decide (a.owner = txn) = true → decide (b.owner = txn) = false := by
  refine List.Pairwise.imp_of_mem (fun {a b} first second distinct mine => ?_) single
  rw [decide_eq_true_eq] at mine
  rw [decide_eq_false_iff_not]
  intro also
  have same : a.sameGrant b = true :=
    Lock.sameGrant_iff.mpr ⟨mine.trans also.symm, (placed a first).trans (placed b second).symm⟩
  rw [same] at distinct
  contradiction

/-- Among the locks of one owner, none but the first on a resource is on it. -/
theorem OneEach.resource_once {locks : Ledger} (single : locks.OneEach) {txn : Txn}
    (owned : ∀ held ∈ locks, held.owner = txn) (resource : Resource) :
    locks.Pairwise fun a b =>
      decide (a.resource = resource) = true → decide (b.resource = resource) = false := by
  refine List.Pairwise.imp_of_mem (fun {a b} first second distinct here => ?_) single
  rw [decide_eq_true_eq] at here
  rw [decide_eq_false_iff_not]
  intro there
  have same : a.sameGrant b = true :=
    Lock.sameGrant_iff.mpr ⟨(owned a first).trans (owned b second).symm, here.trans there.symm⟩
  rw [same] at distinct
  contradiction

theorem OneEach.find? {ledger : Ledger} (single : ledger.OneEach) {lock : Lock}
    (known : lock ∈ ledger) :
    List.find? (fun held => held.owner = lock.owner ∧ held.resource = lock.resource) ledger =
      some lock := by
  obtain ⟨before, after, rfl⟩ := List.append_of_mem known
  have none : List.find? (fun held => held.owner = lock.owner ∧ held.resource = lock.resource)
      before = none := by
    rw [List.find?_eq_none]
    intro held member
    simpa [Lock.sameGrant] using single.others.1 held member
  rw [List.find?_append, none, Option.none_or, List.find?_cons_of_pos (by simp)]

/-- Entering a change of mode is an edit in place. -/
theorem OneEach.edit_replaced {ledger : Ledger} (single : ledger.OneEach) {earlier lock : Lock}
    (known : earlier ∈ ledger) (same : earlier.sameGrant lock = true) :
    ledger.Edit (.replaced lock earlier.mode) (ledger.put lock) := by
  rw [put_of_mem known same]
  obtain ⟨before, after, rfl⟩ := List.append_of_mem known
  obtain ⟨left, right⟩ := single.others
  have kept {part : Ledger} (others : ∀ held ∈ part, held.sameGrant earlier = false) :
      (part.map fun held => if held.sameGrant lock then lock else held) = part := by
    refine (List.map_congr_left fun held member => if_neg ?_).trans (List.map_id _)
    rw [Lock.sameGrant_comm, ← Lock.sameGrant_congr same, Lock.sameGrant_comm, others held member]
    exact Bool.false_ne_true
  have shape : earlier = { lock with mode := earlier.mode } :=
    (Lock.with_mode_of_sameGrant ((Lock.sameGrant_comm _ _).trans same)).symm
  rw [List.map_append, List.map_cons, kept left, kept right, if_pos same, shape]
  exact .amend before after lock earlier.mode

/-- Striking out a grant is the deletion of the one lock that stands for it. -/
theorem OneEach.edit_released {ledger : Ledger} (single : ledger.OneEach) {lock : Lock}
    (known : lock ∈ ledger) :
    ledger.Edit (.released lock) (ledger.strike lock.owner lock.resource) := by
  obtain ⟨before, after, rfl⟩ := List.append_of_mem known
  obtain ⟨left, right⟩ := single.others
  have kept {part : Ledger} (others : ∀ held ∈ part, held.sameGrant lock = false) :
      part.strike lock.owner lock.resource = part :=
    strike_of_absent fun held member => by simpa [Lock.sameGrant] using others held member
  have struck : Ledger.strike (before ++ lock :: after) lock.owner lock.resource =
      before ++ after := by
    rw [Ledger.strike, List.filter_append, List.filter_cons_of_neg (by simp), ← Ledger.strike,
      ← Ledger.strike, kept left, kept right]
  rw [struck]
  exact .delete before after lock

end Ledger
end LockManager
