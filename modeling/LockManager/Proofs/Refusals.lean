import Mathlib.Data.List.Nodup
import LockManager.Proofs.Regular
import LockManager.Session

/-! Refusals. What a call is refused for can be read off the locks that its transaction holds, and
each call looks for its reasons in a fixed order. All of that comes before the first change, so a
refused call leaves no trace. -/
namespace LockManager
namespace Table

variable {table : Table} {txn : Txn}

/-- The transaction has a lock on the resource, in whatever mode. -/
def Holds (table : Table) (txn : Txn) (resource : Resource) : Prop :=
  ∃ held ∈ table.locksHeldBy txn, held.resource = resource

instance Holds.decidable (table : Table) (txn : Txn) (resource : Resource) :
    Decidable (table.Holds txn resource) :=
  inferInstanceAs (Decidable (∃ held ∈ table.locksHeldBy txn, held.resource = resource))

/-- These names may be listed for release: each is held, and none is there twice. -/
structure Releasable (table : Table) (txn : Txn) (names : List Resource) : Prop where
  distinct : names.Nodup
  held : ∀ name ∈ names, table.Holds txn name

/-- Why a name cannot follow these in a list for release. -/
inductive Spoils (table : Table) (txn : Txn) (earlier : List Resource) (name : Resource) :
    Rejection → Prop
  | listedTwice (again : name ∈ earlier) : Spoils table txn earlier name (.listedTwice txn name)
  | notHeld (first : name ∉ earlier) (free : ¬ table.Holds txn name) :
      Spoils table txn earlier name (.notHeld txn name)

/-- What a call is refused for. -/
inductive Refuses (table : Table) (txn : Txn) : Call → Rejection → Prop
  | acquire {resource : Resource} {mode : Mode} (held : table.Holds txn resource) :
      Refuses table txn (.acquire resource mode) (.alreadyHolds txn resource)
  | exchange {resource : Resource} {mode : Mode} {names : List Resource}
      (held : table.Holds txn resource) :
      Refuses table txn (.exchange resource mode names) (.alreadyHolds txn resource)
  | exchangeList {resource name : Resource} {mode : Mode} {before after : List Resource}
      {rejection : Rejection} (free : ¬ table.Holds txn resource)
      (sound : table.Releasable txn before) (spoils : table.Spoils txn before name rejection) :
      Refuses table txn (.exchange resource mode (before ++ name :: after)) rejection
  | release {resource : Resource} (free : ¬ table.Holds txn resource) :
      Refuses table txn (.release resource) (.notHeld txn resource)
  | promote {resource : Resource} {mode : Mode} (free : ¬ table.Holds txn resource) :
      Refuses table txn (.promote resource mode) (.notHeld txn resource)
  | promoteSame {resource : Resource} (held : table.Holds txn resource) :
      Refuses table txn (.promote resource (table.modeOf txn resource))
        (.alreadyInMode txn (table.modeOf txn resource) resource)
  | promoteWeaker {resource : Resource} {mode : Mode} (held : table.Holds txn resource)
      (other : table.modeOf txn resource ≠ mode)
      (weaker : mode.covers (table.modeOf txn resource) = false) :
      Refuses table txn (.promote resource mode)
        (.notStronger mode (table.modeOf txn resource) resource)

/-- There is one reason at most. -/
theorem Spoils.unique {earlier : List Resource} {name : Resource} {first second : Rejection}
    (one : table.Spoils txn earlier name first) (other : table.Spoils txn earlier name second) :
    first = second := by
  cases one with
  | listedTwice again =>
    cases other with
    | listedTwice => rfl
    | notHeld fresh => exact absurd again fresh
  | notHeld fresh =>
    cases other with
    | listedTwice again => exact absurd again fresh
    | notHeld => rfl

theorem isSome_heldLock?_iff {resource : Resource} :
    (table.heldLock? txn resource).isSome = true ↔ table.Holds txn resource := by
  simp [heldLock?, Holds, List.find?_isSome]

theorem heldLock?_eq_none_iff {resource : Resource} :
    table.heldLock? txn resource = none ↔ ¬ table.Holds txn resource := by
  rw [← isSome_heldLock?_iff, Option.not_isSome_iff_eq_none]

namespace Regular

variable (regular : table.Regular)
include regular

/-- The resource's side of the table tells the same about a lock. -/
theorem holds_iff_locksOn {resource : Resource} :
    table.Holds txn resource ↔ ∃ held ∈ table.locksOn resource, held.owner = txn := by
  obtain ⟨ledger, books⟩ := regular.books
  constructor
  · rintro ⟨held, mine, rfl⟩
    obtain ⟨known, owned⟩ := books.mem_locksHeldBy.mp mine
    exact ⟨held, books.mem_locksOn.mpr ⟨known, rfl⟩, owned⟩
  · rintro ⟨held, here, rfl⟩
    obtain ⟨known, placed⟩ := books.mem_locksOn.mp here
    exact ⟨held, books.mem_locksHeldBy.mpr ⟨known, rfl⟩, placed⟩

/-- A lock that is found on its owner's side is shown with its mode on the resource's. -/
theorem modeOf_of_heldLock? {resource : Resource} {lock : Lock}
    (found : table.heldLock? txn resource = some lock) :
    table.modeOf txn resource = lock.mode := by
  obtain ⟨ledger, books⟩ := regular.books
  rw [modeOf, Entry.modeOf, books.lockOf?, ← books.heldLock?, found]
  rfl

end Regular

/-! ### The list of names for release -/

theorem Releasable.cons_iff {name : Resource} {earlier : List Resource} :
    table.Releasable txn (name :: earlier) ↔
      table.Releasable txn earlier ∧ name ∉ earlier ∧ table.Holds txn name := by
  constructor
  · intro sound
    obtain ⟨fresh, distinct⟩ := List.nodup_cons.mp sound.distinct
    exact ⟨⟨distinct, fun other member => sound.held other (List.mem_cons_of_mem _ member)⟩, fresh,
      sound.held name List.mem_cons_self⟩
  · rintro ⟨sound, fresh, held⟩
    refine ⟨List.nodup_cons.mpr ⟨fresh, sound.distinct⟩, fun other member => ?_⟩
    rcases List.mem_cons.mp member with rfl | earlier
    · exact held
    · exact sound.held other earlier

theorem Releasable.reverse_iff {names : List Resource} :
    table.Releasable txn names.reverse ↔ table.Releasable txn names :=
  ⟨fun sound => ⟨List.nodup_reverse.mp sound.distinct,
    fun name member => sound.held name (List.mem_reverse.mpr member)⟩,
    fun sound => ⟨List.nodup_reverse.mpr sound.distinct,
      fun name member => sound.held name (List.mem_reverse.mp member)⟩⟩

/-- A name spoils the list after these names, or may join it. -/
theorem spoils_or_joins (txn : Txn) {earlier : List Resource}
    (sound : table.Releasable txn earlier) (name : Resource) :
    (∃ rejection, table.Spoils txn earlier name rejection ∧
      ¬ table.Releasable txn (name :: earlier) ∧
      ∀ later, table.locksToRelease txn earlier (name :: later) = .error rejection) ∨
    ∃ lock, table.Releasable txn (name :: earlier) ∧
      (∀ rejection, ¬ table.Spoils txn earlier name rejection) ∧
      ∀ later, table.locksToRelease txn earlier (name :: later) =
        (lock :: ·) <$> table.locksToRelease txn (name :: earlier) later := by
  by_cases again : name ∈ earlier
  · refine .inl ⟨_, .listedTwice again, ?_, fun later => by rw [locksToRelease, if_pos again]⟩
    rw [Releasable.cons_iff]
    rintro ⟨-, fresh, -⟩
    exact fresh again
  · cases found : table.heldLock? txn name with
    | none =>
      have free : ¬ table.Holds txn name := heldLock?_eq_none_iff.mp found
      refine .inl ⟨_, .notHeld again free, ?_, fun later => by
        rw [locksToRelease, if_neg again, found]⟩
      rw [Releasable.cons_iff]
      rintro ⟨-, -, held⟩
      exact free held
    | some lock =>
      have held : table.Holds txn name := isSome_heldLock?_iff.mp (by rw [found]; rfl)
      refine .inr ⟨lock, Releasable.cons_iff.mpr ⟨sound, again, held⟩, fun rejection spoils => ?_,
        fun later => by rw [locksToRelease, if_neg again, found]⟩
      cases spoils with
      | listedTwice twice => exact again twice
      | notHeld _ free => exact free held

theorem Releasable.of_append {first second : List Resource}
    (sound : table.Releasable txn (first ++ second)) : table.Releasable txn second :=
  ⟨(List.nodup_append.mp sound.distinct).2.1,
    fun name member => sound.held name (List.mem_append_right _ member)⟩

/-- The first name that spoils the list is what the call is refused for. -/
theorem locksToRelease_error_iff {earlier names : List Resource} {rejection : Rejection}
    (sound : table.Releasable txn earlier) :
    table.locksToRelease txn earlier names = .error rejection ↔
      ∃ before name after, names = before ++ name :: after ∧
        table.Releasable txn (before.reverse ++ earlier) ∧
        table.Spoils txn (before.reverse ++ earlier) name rejection := by
  induction names generalizing earlier with
  | nil => simp [locksToRelease]
  | cons head later ih =>
    have shift (others : List Resource) :
        (head :: others).reverse ++ earlier = others.reverse ++ head :: earlier := by simp
    rcases spoils_or_joins txn sound head with
      ⟨reason, spoils, unsound, stops⟩ | ⟨lock, joined, fits, goesOn⟩
    · rw [stops, Except.error.injEq]
      constructor
      · rintro rfl
        exact ⟨[], head, later, rfl, sound, spoils⟩
      · rintro ⟨before, name, after, split, soFar, spoiled⟩
        cases before with
        | nil =>
          cases split
          exact spoils.unique spoiled
        | cons first others =>
          cases split
          rw [shift] at soFar
          exact absurd soFar.of_append unsound
    · have lifted : table.locksToRelease txn earlier (head :: later) = .error rejection ↔
          table.locksToRelease txn (head :: earlier) later = .error rejection := by
        rw [goesOn]
        cases table.locksToRelease txn (head :: earlier) later <;> simp [Functor.map, Except.map]
      rw [lifted, ih joined]
      constructor
      · rintro ⟨before, name, after, rfl, soFar, spoiled⟩
        refine ⟨head :: before, name, after, rfl, ?_⟩
        rw [shift]
        exact ⟨soFar, spoiled⟩
      · rintro ⟨before, name, after, split, soFar, spoiled⟩
        cases before with
        | nil =>
          cases split
          exact absurd spoiled (fits rejection)
        | cons first others =>
          cases split
          rw [shift] at soFar spoiled
          exact ⟨others, name, after, rfl, soFar, spoiled⟩

theorem exists_locksToRelease_iff {earlier names : List Resource}
    (sound : table.Releasable txn earlier) :
    (∃ locks, table.locksToRelease txn earlier names = .ok locks) ↔
      table.Releasable txn (names.reverse ++ earlier) := by
  induction names generalizing earlier with
  | nil => simpa [locksToRelease] using sound
  | cons head later ih =>
    have shift : (head :: later).reverse ++ earlier = later.reverse ++ head :: earlier := by simp
    rw [shift]
    rcases spoils_or_joins txn sound head with
      ⟨reason, spoils, unsound, stops⟩ | ⟨lock, joined, fits, goesOn⟩
    · rw [stops]
      constructor
      · rintro ⟨locks, impossible⟩
        cases impossible
      · intro all
        exact absurd all.of_append unsound
    · rw [goesOn, ← ih joined]
      cases table.locksToRelease txn (head :: earlier) later <;> simp [Functor.map, Except.map]

theorem Releasable.nil : table.Releasable txn [] := ⟨List.nodup_nil, by simp⟩

theorem Spoils.reverse_iff {earlier : List Resource} {name : Resource} {rejection : Rejection} :
    table.Spoils txn earlier.reverse name rejection ↔ table.Spoils txn earlier name rejection := by
  constructor
  · intro spoils
    cases spoils with
    | listedTwice again => exact .listedTwice (List.mem_reverse.mp again)
    | notHeld fresh free => exact .notHeld (fun member => fresh (List.mem_reverse.mpr member)) free
  · intro spoils
    cases spoils with
    | listedTwice again => exact .listedTwice (List.mem_reverse.mpr again)
    | notHeld fresh free => exact .notHeld (fun member => fresh (List.mem_reverse.mp member)) free

/-- In a list that may not be released there is a first name that spoils it. -/
theorem exists_spoils {names : List Resource} (unsound : ¬ table.Releasable txn names) :
    ∃ before name after rejection, names = before ++ name :: after ∧
      table.Releasable txn before ∧ table.Spoils txn before name rejection := by
  cases result : table.locksToRelease txn [] names with
  | ok locks =>
    have sound := (exists_locksToRelease_iff Releasable.nil).mp ⟨locks, result⟩
    rw [List.append_nil, Releasable.reverse_iff] at sound
    exact absurd sound unsound
  | error rejection =>
    obtain ⟨before, name, after, split, sound, spoils⟩ :=
      (locksToRelease_error_iff Releasable.nil).mp result
    rw [List.append_nil, Releasable.reverse_iff] at sound
    rw [List.append_nil, Spoils.reverse_iff] at spoils
    exact ⟨before, name, after, rejection, split, sound, spoils⟩

/-- A name spoils no list that may be released. -/
theorem Releasable.not_spoils {before after : List Resource} {name : Resource}
    {rejection : Rejection} (sound : table.Releasable txn (before ++ name :: after)) :
    ¬ table.Spoils txn before name rejection := by
  intro spoils
  cases spoils with
  | listedTwice again =>
    exact (List.nodup_append.mp sound.distinct).2.2 name again name List.mem_cons_self rfl
  | notHeld _ free =>
    exact free (sound.held name (List.mem_append_right _ List.mem_cons_self))

theorem Spoils.kind {earlier : List Resource} {name : Resource} {rejection : Rejection}
    (spoils : table.Spoils txn earlier name rejection) : rejection.kind = .noLockHeld := by
  cases spoils <;> rfl

/-! ### The calls -/

theorem acquire_error_iff {resource : Resource} {mode : Mode} {rejection : Rejection} :
    table.call txn (.acquire resource mode) = .error rejection ↔
      table.Refuses txn (.acquire resource mode) rejection := by
  simp only [Table.call, acquire]
  split
  · next found =>
    have held := isSome_heldLock?_iff.mp found
    constructor
    · rintro refused
      cases refused
      exact .acquire held
    · rintro ⟨⟩
      rfl
  · next found =>
    have free : ¬ table.Holds txn resource := fun held => found (isSome_heldLock?_iff.mpr held)
    constructor
    · intro refused
      split at refused <;> cases refused
    · rintro ⟨held⟩
      exact absurd held free

theorem exchange_error_iff {resource : Resource} {mode : Mode} {names : List Resource}
    {rejection : Rejection} :
    table.call txn (.exchange resource mode names) = .error rejection ↔
      table.Refuses txn (.exchange resource mode names) rejection := by
  simp only [Table.call, exchange]
  split
  · next found =>
    have held := isSome_heldLock?_iff.mp found
    constructor
    · intro refused
      cases refused
      exact .exchange held
    · intro refuses
      cases refuses with
      | exchange => rfl
      | exchangeList free => exact absurd held free
  · next found =>
    have free : ¬ table.Holds txn resource := fun held => found (isSome_heldLock?_iff.mpr held)
    have spoiled (reason : Rejection) : table.locksToRelease txn [] names = .error reason ↔
        ∃ before name after, names = before ++ name :: after ∧ table.Releasable txn before ∧
          table.Spoils txn before name reason := by
      rw [locksToRelease_error_iff Releasable.nil]
      simp only [List.append_nil, Releasable.reverse_iff, Spoils.reverse_iff]
    constructor
    · intro refused
      split at refused
      · next reason stops =>
        cases refused
        obtain ⟨before, name, after, rfl, sound, spoils⟩ := (spoiled _).mp stops
        exact .exchangeList free sound spoils
      · split at refused <;> cases refused
    · intro refuses
      cases refuses with
      | exchange held => exact absurd held free
      | exchangeList _ sound spoils => rw [(spoiled _).mpr ⟨_, _, _, rfl, sound, spoils⟩]

theorem release_error_iff {resource : Resource} {rejection : Rejection} :
    table.call txn (.release resource) = .error rejection ↔
      table.Refuses txn (.release resource) rejection := by
  simp only [Table.call, release]
  split
  · next found =>
    have held := isSome_heldLock?_iff.mp found
    constructor
    · intro refused
      cases refused
    · rintro ⟨⟩
      contradiction
  · next found =>
    have free : ¬ table.Holds txn resource := fun held => found (isSome_heldLock?_iff.mpr held)
    constructor
    · intro refused
      cases refused
      exact .release free
    · rintro ⟨⟩
      rfl

theorem promote_error_iff (regular : table.Regular) {resource : Resource} {mode : Mode}
    {rejection : Rejection} :
    table.call txn (.promote resource mode) = .error rejection ↔
      table.Refuses txn (.promote resource mode) rejection := by
  simp only [Table.call, promote]
  split
  · next found =>
    have free := heldLock?_eq_none_iff.mp found
    constructor
    · intro refused
      cases refused
      exact .promote free
    · intro refuses
      cases refuses with
      | promote => rfl
      | promoteSame held | promoteWeaker held => exact absurd held free
  · next current found =>
    have held : table.Holds txn resource := isSome_heldLock?_iff.mp (by rw [found]; rfl)
    have mode_eq := regular.modeOf_of_heldLock? found
    rw [← mode_eq]
    constructor
    · intro refused
      split at refused
      · next same =>
        cases refused
        subst same
        exact .promoteSame held
      · next other =>
        split at refused
        · next weaker =>
          cases refused
          exact .promoteWeaker held other (by simpa using weaker)
        · split at refused <;> cases refused
    · intro refuses
      cases refuses with
      | promote free => exact absurd held free
      | promoteSame => rw [if_pos rfl]
      | promoteWeaker _ other weaker => rw [if_neg other, if_pos (by simp [weaker])]

/-- A call is refused for the reasons there are, and for no others. -/
theorem call_error_iff (regular : table.Regular) {call : Call} {rejection : Rejection} :
    table.call txn call = .error rejection ↔ table.Refuses txn call rejection := by
  cases call with
  | acquire resource mode => exact acquire_error_iff
  | exchange resource mode names => exact exchange_error_iff
  | release resource => exact release_error_iff
  | promote resource mode => exact promote_error_iff regular

end Table

namespace Manager

variable {manager : Manager} {txn : Txn} {call : Call}

/-- The kind of failure that the caller is told, if the call is refused. -/
def failure? (manager : Manager) (txn : Txn) (call : Call) : Option FaultKind :=
  match manager.call txn call with
  | .ok _ => none
  | .error rejection => some rejection.kind

theorem call_error_iff (regular : manager.table.Regular) {rejection : Rejection} :
    manager.call txn call = .error rejection ↔ manager.table.Refuses txn call rejection := by
  rw [← Table.call_error_iff regular, Manager.call]
  split
  · next reason refused => rw [refused, Except.error.injEq, Except.error.injEq]
  · next outcome accepted => simp [accepted]

theorem failure?_of_refuses (regular : manager.table.Regular) {rejection : Rejection}
    (refuses : manager.table.Refuses txn call rejection) :
    manager.failure? txn call = some rejection.kind := by
  rw [failure?, (call_error_iff regular).mpr refuses]

theorem failure?_eq_none (regular : manager.table.Regular)
    (accepts : ∀ rejection, ¬ manager.table.Refuses txn call rejection) :
    manager.failure? txn call = none := by
  rw [failure?]
  split
  · rfl
  · next rejection refused => exact absurd ((call_error_iff regular).mp refused) (accepts rejection)

theorem failure?_acquire (regular : manager.table.Regular) (resource : Resource) (mode : Mode) :
    manager.failure? txn (.acquire resource mode) =
      if manager.table.Holds txn resource then some .duplicateLock else none := by
  split
  · next held => exact failure?_of_refuses regular (.acquire held)
  · next free =>
    apply failure?_eq_none regular
    rintro rejection ⟨held⟩
    exact free held

theorem failure?_exchange (regular : manager.table.Regular) (resource : Resource) (mode : Mode)
    (names : List Resource) :
    manager.failure? txn (.exchange resource mode names) =
      if manager.table.Holds txn resource then some .duplicateLock
      else if names.Nodup ∧ ∀ name ∈ names, manager.table.Holds txn name then none
      else some .noLockHeld := by
  split
  · next held => exact failure?_of_refuses regular (.exchange held)
  · next free =>
    split
    · next sound =>
      apply failure?_eq_none regular
      intro rejection refuses
      cases refuses with
      | exchange held => exact free held
      | exchangeList _ _ spoils => exact Table.Releasable.not_spoils ⟨sound.1, sound.2⟩ spoils
    · next unsound =>
      obtain ⟨before, name, after, rejection, rfl, sound, spoils⟩ :=
        Table.exists_spoils fun sound : manager.table.Releasable txn names =>
          unsound ⟨sound.distinct, sound.held⟩
      rw [failure?_of_refuses regular (.exchangeList free sound spoils), spoils.kind]

theorem failure?_release (regular : manager.table.Regular) (resource : Resource) :
    manager.failure? txn (.release resource) =
      if manager.table.Holds txn resource then none else some .noLockHeld := by
  split
  · next held =>
    apply failure?_eq_none regular
    rintro rejection ⟨⟩
    contradiction
  · next free => exact failure?_of_refuses regular (.release free)

theorem failure?_promote (regular : manager.table.Regular) (resource : Resource) (mode : Mode) :
    manager.failure? txn (.promote resource mode) =
      if ¬ manager.table.Holds txn resource then some .noLockHeld
      else if manager.table.modeOf txn resource = mode then some .duplicateLock
      else if mode.covers (manager.table.modeOf txn resource) then none
      else some .invalidLock := by
  split
  · next free => exact failure?_of_refuses regular (.promote free)
  · next held =>
    rw [Classical.not_not] at held
    split
    · next same =>
      subst same
      exact failure?_of_refuses regular (.promoteSame held)
    · next other =>
      split
      · next stronger =>
        apply failure?_eq_none regular
        intro rejection refuses
        cases refuses with
        | promote free => exact free held
        | promoteSame => exact other rfl
        | promoteWeaker _ _ weaker =>
          rw [stronger] at weaker
          contradiction
      · next weaker =>
        exact failure?_of_refuses regular (.promoteWeaker held other (by simpa using weaker))

end Manager

/-- After any run it can be told from the locks a transaction holds which of its calls fail, and
how. Of the names listed for release the first bad one is told. A call that fails changes nothing
and notes nothing. -/
theorem failure_exactly_when (turns : List Turn) (txn : Txn) :
    let manager := Manager.run {} turns
    let table := manager.table
    (∀ resource, table.Holds txn resource ↔ ∃ held ∈ table.locksOn resource, held.owner = txn) ∧
    (∀ resource mode, manager.failure? txn (.acquire resource mode) =
      if table.Holds txn resource then some .duplicateLock else none) ∧
    (∀ resource mode names, manager.failure? txn (.exchange resource mode names) =
      if table.Holds txn resource then some .duplicateLock
      else if names.Nodup ∧ ∀ name ∈ names, table.Holds txn name then none
      else some .noLockHeld) ∧
    (∀ resource, manager.failure? txn (.release resource) =
      if table.Holds txn resource then none else some .noLockHeld) ∧
    (∀ resource mode, manager.failure? txn (.promote resource mode) =
      if ¬ table.Holds txn resource then some .noLockHeld
      else if table.modeOf txn resource = mode then some .duplicateLock
      else if mode.covers (table.modeOf txn resource) then none
      else some .invalidLock) ∧
    (∀ resource mode before name after rejection, ¬ table.Holds txn resource →
      table.Releasable txn before → table.Spoils txn before name rejection →
        manager.call txn (.exchange resource mode (before ++ name :: after)) =
          .error rejection) ∧
    (∀ call rejection, manager.call txn call = .error rejection →
      manager.take ⟨txn, call⟩ = manager ∧ (table.take ⟨txn, call⟩).events = [] ∧
        ∀ session : Session, session.manager = manager →
          session.perform txn (.ok call) =
            { session, reply := .error rejection.fault, journal := [] }) := by
  intro manager table
  have regular : table.Regular := by
    have same : table = Table.empty.run turns := Manager.table_run {} turns
    rw [same]
    exact Table.Regular.run turns
  refine ⟨fun resource => regular.holds_iff_locksOn, Manager.failure?_acquire regular,
    Manager.failure?_exchange regular, Manager.failure?_release regular,
    Manager.failure?_promote regular, ?_, ?_⟩
  · intro resource mode before name after rejection free sound spoils
    exact (Manager.call_error_iff regular).mpr (.exchangeList free sound spoils)
  · intro call rejection refused
    have rejected : table.call txn call = .error rejection :=
      (Table.call_error_iff regular).mpr ((Manager.call_error_iff regular).mp refused)
    refine ⟨?_, ?_, fun session same => ?_⟩
    · simp only [Manager.take, refused]
    · simp only [Table.take, rejected]
    · rw [Session.perform, same, refused]

end LockManager
