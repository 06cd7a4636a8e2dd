import LockManager.Proofs.Contexts

/-! The root context of a table. Settings are accepted just if their root name can be read as a path
of one segment, so a table that was opened with settings always has a root context. It is the one
that its name leads to, and stays so for as long as the table is there. -/
namespace LockManager

namespace Resource

variable {resource : Resource} {text : String}

theorem parse_single_iff :
    parse text = .ok resource ∧ resource.depth = 1 ↔ resource.names = [text] := by
  have alone : "/".intercalate [text] = text := by simp
  rw [← parse_intercalate_iff, alone, List.length_singleton]

end Resource

/-- A root name is accepted just if there is a resource with this name alone. -/
theorem Settings.check_eq_ok_iff {settings : Settings} : settings.check = .ok () ↔
    ∃ resource : Resource, resource.names = [settings.rootName] := by
  have empty : settings.rootName.isEmpty = true ↔ settings.rootName = "" := String.isEmpty_iff
  have inside : (settings.rootName.toList.any fun mark => mark == separator) = true ↔
      separator ∈ settings.rootName.toList := by
    simp
  rw [Resource.exists_names_iff, List.forall_mem_singleton]
  simp only [check, empty, inside]
  split
  · next nothing => simp [nothing]
  · next something =>
    split
    · next cut => simp [cut]
    · next whole => simp [something, whole]

namespace Session

variable {settings : Settings} {session : Session} {command : Command} {slot : String}

/-- A table is opened just with settings that are accepted. -/
theorem start_eq_ok_iff :
    start settings = .ok session ↔ settings.check = .ok () ∧ session = { settings } := by
  rw [start, bind_eq_ok_iff]
  constructor
  · rintro ⟨_, accepted, opened⟩
    cases opened
    exact ⟨accepted, rfl⟩
  · rintro ⟨accepted, rfl⟩
    exact ⟨(), accepted, rfl⟩

/-! ### Asking for the root context -/

/-- The command is answered with the name of the context and keeps the context in the slot. -/
def Finds (session : Session) (command : Command) (slot : String) (context : Context) : Prop :=
  (session.run command).reply = .ok (.named context.resource) ∧
    (session.run command).session.registry.slots[slot]? = some context

/-- The two ways to ask a table for its root context. -/
def rootQuestions (rootName slot : String) : List Command :=
  [.rootContext slot, .context rootName slot]

theorem ne_dropTable {rootName : String} (question : command ∈ rootQuestions rootName slot) :
    command ≠ .dropTable := by
  rcases List.mem_pair.mp question with rfl | rfl <;> exact Command.noConfusion

/-- Either question asks the table that was opened for the root name of its settings. -/
theorem asked_rootQuestion {name : Resource} (stays : Stays { settings } session)
    (named : Resource.ofSegment settings.rootName = .ok name)
    (question : command ∈ rootQuestions settings.rootName slot) :
    session.asked? command = some (slot, .ok name) := by
  have table : session.registry.tableAlive = true := stays.table
  have current : session.settings = settings := stays.settings
  rcases List.mem_pair.mp question with rfl | rfl <;> simp [asked?, table, current, named]

/-- Both questions have the same answer. -/
theorem run_rootQuestion (current : session.settings = settings)
    (question : command ∈ rootQuestions settings.rootName slot) :
    session.run command = session.run (.rootContext slot) := by
  rcases List.mem_pair.mp question with rfl | rfl
  · rfl
  · rw [← current]
    rfl

/-- A context that was made before is found by its name. -/
theorem finds_of_mem (proper : session.registry.Proper) {context : Context}
    (known : context ∈ session.registry.contexts)
    (asks : session.asked? command = some (slot, .ok context.resource)) :
    session.Finds command slot context := by
  obtain ⟨found, there, kept, reply, named, -⟩ := asked_ok asks
  have changes := changes_run proper command
  have still : context ∈ (session.run command).session.registry.contexts :=
    changes.isPrefix.subset known
  rw [(changes.proper proper).unique there still named] at kept
  exact ⟨reply, kept⟩

/-- A root name that is well-formed leads to a context with this name, by either question. -/
theorem exists_root {name : Resource} (stays : Stays { settings } session)
    (named : Resource.ofSegment settings.rootName = .ok name) (slot : String) :
    ∃ root : Context, root.resource = name ∧
      ∀ first ∈ rootQuestions settings.rootName slot,
        session.Finds first slot root ∧
          root ∈ (session.run first).session.registry.contexts := by
  have asks : session.asked? (.rootContext slot) = some (slot, .ok name) :=
    asked_rootQuestion stays named List.mem_cons_self
  obtain ⟨root, known, kept, reply, called, -⟩ := asked_ok asks
  refine ⟨root, called, fun first question => ?_⟩
  rw [Finds, run_rootQuestion stays.settings question, called]
  exact ⟨⟨reply, kept⟩, known⟩

/-- Once the root is there, either question finds it, whatever is asked in between. -/
theorem finds_after (proper : session.registry.Proper) (stays : Stays { settings } session)
    {root : Context} (known : root ∈ session.registry.contexts)
    (named : Resource.ofSegment settings.rootName = .ok root.resource) {later : List Command}
    (undropped : Command.dropTable ∉ later)
    (question : command ∈ rootQuestions settings.rootName slot) :
    (session.after later).Finds command slot root := by
  obtain ⟨ended, kept⟩ := proper_after proper later
  have lasting : Stays { settings } (session.after later) := stays.trans (.after _ undropped)
  exact finds_of_mem ended (kept.subset known) (asked_rootQuestion lasting named question)

end Session

/-- Settings are accepted, and a table is opened with them, just if their root name alone can be
the name of a resource. That resource is then the one that the root name makes as a segment, and
also the one that it is read as, as a path. Until the table is dropped, it finds a context with this
name whenever it is asked for its root context or for the context of the root name. It is one
context for both questions and for all later ones, whatever is asked and locked in between. -/
theorem root_context_found :
    (∀ settings : Settings,
      (settings.check = .ok () ↔ ∃ session, Session.start settings = .ok session) ∧
      (settings.check = .ok () ↔
        ∃ resource, Resource.ofSegment settings.rootName = .ok resource) ∧
      (settings.check = .ok () ↔
        ∃ resource, Resource.parse settings.rootName = .ok resource ∧ resource.depth = 1) ∧
      ∀ resource,
        (Resource.ofSegment settings.rootName = .ok resource ↔
          resource.names = [settings.rootName]) ∧
        (Resource.parse settings.rootName = .ok resource ∧ resource.depth = 1 ↔
          resource.names = [settings.rootName])) ∧
    ∀ settings session, Session.start settings = .ok session →
      ∀ commands, Command.dropTable ∉ commands → let now := session.after commands
        ∀ slot, ∃ root : Context, root.resource.names = [settings.rootName] ∧
          ∀ first ∈ Session.rootQuestions settings.rootName slot,
            now.Finds first slot root ∧
            ∀ later, Command.dropTable ∉ later → let next := (now.run first).session.after later
              ∀ place, ∀ second ∈ Session.rootQuestions settings.rootName place,
                next.Finds second place root := by
  refine ⟨fun settings => ⟨?_, ?_, ?_, fun resource => ?_⟩, ?_⟩
  · simp only [Session.start_eq_ok_iff, exists_and_left, exists_eq, and_true]
  · simp only [Resource.ofSegment_eq_ok_iff, Settings.check_eq_ok_iff]
  · simp only [Resource.parse_single_iff, Settings.check_eq_ok_iff]
  · exact ⟨Resource.ofSegment_eq_ok_iff, Resource.parse_single_iff⟩
  · intro settings session opened commands undropped now slot
    obtain ⟨accepted, rfl⟩ := Session.start_eq_ok_iff.mp opened
    obtain ⟨name, named⟩ := Settings.check_eq_ok_iff.mp accepted
    have made : Resource.ofSegment settings.rootName = .ok name :=
      Resource.ofSegment_eq_ok_iff.mpr named
    have proper : now.registry.Proper := (Session.proper_after Registry.Proper.empty commands).1
    have current : Session.Stays { settings } now := .after _ undropped
    obtain ⟨root, called, finds⟩ := Session.exists_root current made slot
    rw [← called] at made
    refine ⟨root, by rw [called, named], fun first question => ?_⟩
    obtain ⟨found, known⟩ := finds first question
    have ran := (Session.changes_run proper first).proper proper
    have answered : Session.Stays { settings } (now.run first).session :=
      current.trans (.run now (Session.ne_dropTable question))
    refine ⟨found, ?_⟩
    intro later untouched next place second asked
    exact Session.finds_after ran answered known made untouched asked

namespace Sample

def warehouse : Settings := { rootName := "warehouse" }

/-- Below the root there is a context with the same last name, and nobody keeps the root. -/
def nestedWarehouse : List Command :=
  [.context "warehouse" "main", .child "main" "warehouse" "inner", .acquireAt "inner" ⟨1⟩ "X",
    .forget "main"]

end Sample

/-- The root of the warehouse is found again after it was forgotten, and is not the context below
it. -/
theorem warehouse_root_found :
    let now := Session.after { settings := Sample.warehouse } Sample.nestedWarehouse
    Session.start Sample.warehouse = .ok { settings := Sample.warehouse } ∧
    Command.dropTable ∉ Sample.nestedWarehouse ∧
    ∃ root : Context, root.resource.names = ["warehouse"] ∧
      now.Finds (.rootContext "root") "root" root ∧
      ((now.run (.rootContext "root")).session.after [.forget "root"]).Finds
        (.context "warehouse" "again") "again" root := by
  intro now
  have opened : Session.start Sample.warehouse = .ok { settings := Sample.warehouse } :=
    Session.start_eq_ok_iff.mpr ⟨by decide +kernel, rfl⟩
  have undropped : Command.dropTable ∉ Sample.nestedWarehouse := by
    simp [Sample.nestedWarehouse]
  have untouched : Command.dropTable ∉ [Command.forget "root"] := by
    simp
  obtain ⟨root, named, finds⟩ := root_context_found.2 _ _ opened _ undropped "root"
  obtain ⟨found, again⟩ := finds (.rootContext "root") List.mem_cons_self
  refine ⟨opened, undropped, root, named, found, ?_⟩
  exact again _ untouched "again" _ (List.mem_cons_of_mem _ List.mem_cons_self)

end LockManager
