import Mathlib.Data.List.Nodup
import LockManager.Proofs.Paths
import LockManager.Session

/-! One context for each resource. A context is made by the table or by the context above it, which
keep it for as long as they live themselves. So a resource has the same context for as long as
anybody can ask for it, and a context finds the one above it unless that one is gone. -/
namespace LockManager
open Std

namespace Registry

/-- A context lives while it is kept, or while the table or the context that made it lives. -/
inductive Lives (registry : Registry) : Context → Prop
  | kept {slot : String} {context : Context} (here : registry.slots[slot]? = some context) :
      Lives registry context
  | top {context : Context} (known : context ∈ registry.contexts) (root : context.lineage = [])
      (table : registry.tableAlive = true) : Lives registry context
  | child {above context : Context} (known : context ∈ registry.contexts)
      (made : context.lineage = above.number :: above.lineage) (owner : Lives registry above) :
      Lives registry context

/-- The table makes contexts with one segment, and a context those one step below it. -/
inductive Origin (contexts : List Context) : List Nat → Resource → Prop
  | top (segment : Segment) : Origin contexts [] (.top segment)
  | child {above : Context} (known : above ∈ contexts) (segment : Segment) :
      Origin contexts (above.number :: above.lineage) (above.resource.extend segment)

/-- Contexts are numbered as they are made, each is made once, and only such contexts are kept. -/
structure Proper (registry : Registry) : Prop where
  numbered : registry.contexts.map Context.number = List.range registry.contexts.length
  made : ∀ context ∈ registry.contexts, Origin registry.contexts context.lineage context.resource
  once : ∀ first ∈ registry.contexts, ∀ second ∈ registry.contexts,
    first.lineage = second.lineage → first.resource = second.resource → first = second
  kept : ∀ (slot : String) (context : Context), registry.slots[slot]? = some context →
    context ∈ registry.contexts

variable {registry : Registry} {context : Context}

theorem Origin.mono {before after : List Context} (more : before ⊆ after) {lineage : List Nat}
    {resource : Resource} (origin : Origin before lineage resource) :
    Origin after lineage resource := by
  cases origin with
  | top segment => exact .top segment
  | child known segment => exact .child (more known) segment

/-! ### Contexts are made once -/

/-- A context is found, or it is new and comes last. -/
theorem obtain_cases (registry : Registry) (lineage : List Nat) (resource : Resource) :
    (∃ context ∈ registry.contexts, context.lineage = lineage ∧ context.resource = resource ∧
      registry.obtain lineage resource = (context, registry)) ∨
    (∀ context ∈ registry.contexts, context.lineage = lineage → context.resource ≠ resource) ∧
      registry.obtain lineage resource = (⟨registry.contexts.length, resource, lineage⟩,
        { registry with
          contexts := registry.contexts ++ [⟨registry.contexts.length, resource, lineage⟩] }) := by
  unfold obtain
  split
  · next context found =>
    have matched := List.find?_some found
    rw [decide_eq_true_eq] at matched
    exact .inl ⟨context, List.mem_of_find?_eq_some found, matched.1, matched.2, rfl⟩
  · next none =>
    rw [List.find?_eq_none] at none
    exact .inr ⟨by simpa using none, rfl⟩

namespace Proper

theorem empty : Proper {} where
  numbered := rfl
  made context known := by cases known
  once first known := by cases known
  kept slot context here := by simp at here

theorem obtain (proper : registry.Proper) {lineage : List Nat} {resource : Resource}
    (origin : Origin registry.contexts lineage resource) :
    (registry.obtain lineage resource).2.Proper := by
  rcases registry.obtain_cases lineage resource with ⟨context, known, -, -, same⟩ | ⟨fresh, new⟩
  · rwa [same]
  · have more : registry.contexts ⊆
        registry.contexts ++ [⟨registry.contexts.length, resource, lineage⟩] :=
      List.subset_append_left _ _
    rw [new]
    refine ⟨?_, fun context known => ?_, fun first one second other line path => ?_,
      fun slot context here => more (proper.kept slot context here)⟩
    · simp [proper.numbered, List.range_succ]
    · rcases List.mem_append.mp known with old | last
      · exact (proper.made context old).mono more
      · rw [List.mem_singleton.mp last]
        exact origin.mono more
    · rcases List.mem_append.mp one with old | last <;>
        rcases List.mem_append.mp other with before | new
      · exact proper.once first old second before line path
      · obtain rfl := List.mem_singleton.mp new
        exact absurd path (fresh first old line)
      · obtain rfl := List.mem_singleton.mp last
        exact absurd path.symm (fresh second before line.symm)
      · rw [List.mem_singleton.mp last, List.mem_singleton.mp new]

theorem keep (proper : registry.Proper) (slot : String) (known : context ∈ registry.contexts) :
    (registry.keep slot context).Proper where
  numbered := proper.numbered
  made := proper.made
  once := proper.once
  kept other found here := by
    simp only [Registry.keep, ExtTreeMap.getElem?_insert] at here
    split at here
    · cases here
      exact known
    · exact proper.kept other found here

theorem forget (proper : registry.Proper) (slot : String) : (registry.forget slot).Proper where
  numbered := proper.numbered
  made := proper.made
  once := proper.once
  kept other found here := by
    simp only [Registry.forget, ExtTreeMap.getElem?_erase] at here
    split at here
    · cases here
    · exact proper.kept other found here

theorem dropTable (proper : registry.Proper) : registry.dropTable.Proper :=
  ⟨proper.numbered, proper.made, proper.once, proper.kept⟩

/-- A number belongs to one context. -/
theorem number_inj (proper : registry.Proper) {first second : Context}
    (one : first ∈ registry.contexts) (other : second ∈ registry.contexts)
    (same : first.number = second.number) : first = second := by
  have distinct : (registry.contexts.map Context.number).Nodup := by
    rw [proper.numbered]
    exact List.nodup_range
  exact List.inj_on_of_nodup_map distinct one other same

/-- A context is at the top, or was made by the one that has its name without the last segment. -/
theorem top_or_child (proper : registry.Proper) (known : context ∈ registry.contexts) :
    context.lineage = [] ∧ context.resource.parent? = none ∨
      ∃ above ∈ registry.contexts, context.lineage = above.number :: above.lineage ∧
        context.resource.parent? = some above.resource := by
  have origin := proper.made context known
  generalize context.lineage = lineage, context.resource = resource at origin
  cases origin with
  | top segment => exact .inl ⟨rfl, Resource.parent?_top segment⟩
  | child before segment =>
    exact .inr ⟨_, before, rfl, Resource.parent?_extend _ segment⟩

/-- A name belongs to one context. The contexts above have the same names in turn, up to the top,
where the table makes one for each name. -/
theorem unique (proper : registry.Proper) {first second : Context}
    (one : first ∈ registry.contexts) (other : second ∈ registry.contexts)
    (same : first.resource = second.resource) : first = second := by
  refine proper.once first one second other ?_ same
  rcases proper.top_or_child one with ⟨line, parent⟩ | ⟨above, known, line, parent⟩ <;>
    rcases proper.top_or_child other with ⟨root, top⟩ | ⟨owner, before, made, up⟩
  · rw [line, root]
  · rw [same, up] at parent
    cases parent
  · rw [same, top] at parent
    cases parent
  · have shorter := Resource.depth_lt_of_parent? parent
    rw [same, up, Option.some.injEq] at parent
    rw [line, made, unique proper known before parent.symm]
termination_by first.resource.depth

/-! ### Lives -/

theorem isKept_iff (proper : registry.Proper) (known : context ∈ registry.contexts) :
    registry.isKept context.number = true ↔ ∃ slot : String, registry.slots[slot]? = some context := by
  simp only [isKept, List.any_eq_true, Prod.exists, ExtTreeMap.mem_toList_iff_getElem?_eq_some,
    decide_eq_true_eq]
  constructor
  · rintro ⟨slot, other, here, same⟩
    rw [proper.number_inj (proper.kept slot other here) known same] at here
    exact ⟨slot, here⟩
  · rintro ⟨slot, here⟩
    exact ⟨slot, context, here, rfl⟩

theorem isAlive_child {above : Context} (made : context.lineage = above.number :: above.lineage) :
    registry.isAlive context = (registry.isKept context.number || registry.isAlive above) := by
  rw [isAlive, made, List.any_cons, isAlive]
  cases registry.tableAlive <;> cases registry.isKept context.number <;> rfl

theorem isAlive_top (root : context.lineage = []) :
    registry.isAlive context = (registry.isKept context.number || registry.tableAlive) := by
  rw [isAlive, root, List.any_cons, List.any_nil, Bool.or_false, Bool.or_comm]

/-- A context is alive if one can go from something that lasts to it. -/
theorem isAlive_iff_lives (proper : registry.Proper) {context : Context}
    (known : context ∈ registry.contexts) :
    registry.isAlive context = true ↔ registry.Lives context := by
  constructor
  · intro alive
    rcases proper.top_or_child known with ⟨root, -⟩ | ⟨above, before, made, parent⟩
    · rw [isAlive_top root, Bool.or_eq_true, proper.isKept_iff known] at alive
      rcases alive with ⟨slot, here⟩ | table
      · exact .kept here
      · exact .top known root table
    · rw [isAlive_child made, Bool.or_eq_true, proper.isKept_iff known] at alive
      rcases alive with ⟨slot, here⟩ | owner
      · exact .kept here
      · have shorter := Resource.depth_lt_of_parent? parent
        exact .child known made ((proper.isAlive_iff_lives before).mp owner)
  · intro lives
    clear known
    induction lives with
    | @kept slot context here =>
      have kept := (proper.isKept_iff (proper.kept slot context here)).mpr ⟨slot, here⟩
      simp [isAlive, kept]
    | top known root table => simp [isAlive, table]
    | child known made owner ih => rw [isAlive_child made, ih, Bool.or_true]
termination_by context.resource.depth

theorem lives_of_tableAlive (proper : registry.Proper) (table : registry.tableAlive = true)
    (known : context ∈ registry.contexts) : registry.Lives context := by
  apply (proper.isAlive_iff_lives known).mp
  simp [isAlive, table]

/-! ### The context above -/

/-- Contexts are looked up by number, for which there is at most one. -/
theorem find?_number_iff (proper : registry.Proper) {number : Nat} {wanted : Context → Bool} :
    (registry.contexts.find? fun other => other.number = number && wanted other) = some context ↔
      context ∈ registry.contexts ∧ context.number = number ∧ wanted context = true := by
  constructor
  · intro found
    have matched := List.find?_some found
    rw [Bool.and_eq_true, decide_eq_true_eq] at matched
    exact ⟨List.mem_of_find?_eq_some found, matched⟩
  · rintro ⟨known, rfl, fine⟩
    cases found : registry.contexts.find? fun other =>
        other.number = context.number && wanted other with
    | none =>
      rw [List.find?_eq_none] at found
      exact absurd (by simpa using fine) (found context known)
    | some other =>
      have matched := List.find?_some found
      rw [Bool.and_eq_true, decide_eq_true_eq] at matched
      rw [proper.number_inj (List.mem_of_find?_eq_some found) known matched.1]

/-- A context finds the one above it while that one lives. -/
theorem parent?_eq_some_iff (proper : registry.Proper) (known : context ∈ registry.contexts)
    {above : Context} : registry.parent? context = some above ↔ above ∈ registry.contexts ∧
      context.resource.parent? = some above.resource ∧ registry.Lives above := by
  rcases proper.top_or_child known with ⟨root, top⟩ | ⟨owner, there, made, parent⟩
  · simp [Registry.parent?, root, top]
  · simp only [Registry.parent?, made]
    rw [proper.find?_number_iff, parent, Option.some.injEq]
    constructor
    · rintro ⟨before, same, alive⟩
      obtain rfl := proper.number_inj before there same
      exact ⟨before, rfl, (proper.isAlive_iff_lives before).mp alive⟩
    · rintro ⟨before, same, lives⟩
      obtain rfl := proper.unique there before same
      exact ⟨there, rfl, (proper.isAlive_iff_lives there).mpr lives⟩

theorem parent?_eq_none_iff (proper : registry.Proper) (known : context ∈ registry.contexts) :
    registry.parent? context = none ↔ context.resource.depth = 1 ∨
      ∃ above ∈ registry.contexts, context.resource.parent? = some above.resource ∧
        ¬ registry.Lives above := by
  rw [← Resource.parent?_eq_none_iff, Option.eq_none_iff_forall_ne_some]
  rcases proper.top_or_child known with ⟨root, top⟩ | ⟨above, before, -, parent⟩
  · simp [proper.parent?_eq_some_iff known, top]
  · constructor
    · intro nobody
      refine .inr ⟨above, before, parent, fun lives => nobody above ?_⟩
      exact (proper.parent?_eq_some_iff known).mpr ⟨before, parent, lives⟩
    · rintro (top | ⟨other, there, up, gone⟩) found owned
      · rw [parent] at top
        cases top
      · obtain ⟨here, name, lives⟩ := (proper.parent?_eq_some_iff known).mp owned
        rw [name, Option.some.injEq] at up
        rw [proper.unique here there up] at lives
        exact gone lives

/-- A context lives by a slot, by the table, or by the context above it. -/
theorem lives_iff (proper : registry.Proper) (known : context ∈ registry.contexts) :
    registry.Lives context ↔ (∃ slot : String, registry.slots[slot]? = some context) ∨
      context.resource.depth = 1 ∧ registry.tableAlive = true ∨
        ∃ above ∈ registry.contexts, context.resource.parent? = some above.resource ∧
          registry.Lives above := by
  rw [← Resource.parent?_eq_none_iff, ← proper.isAlive_iff_lives known]
  rcases proper.top_or_child known with ⟨root, top⟩ | ⟨above, before, made, parent⟩
  · simp [isAlive_top root, proper.isKept_iff known, top]
  · rw [isAlive_child made, Bool.or_eq_true, proper.isKept_iff known,
      proper.isAlive_iff_lives before]
    constructor
    · rintro (kept | lives)
      · exact .inl kept
      · exact .inr (.inr ⟨above, before, parent, lives⟩)
    · rintro (kept | ⟨top, -⟩ | ⟨other, there, up, lives⟩)
      · exact .inl kept
      · rw [parent] at top
        cases top
      · rw [parent, Option.some.injEq] at up
        rw [proper.unique before there up]
        exact .inr lives

end Proper

/-- What a command can do to the contexts and to the slots. -/
inductive Changes (registry : Registry) : Registry → Prop
  | stays : Changes registry registry
  | keeps {lineage : List Nat} {resource : Resource} (slot : String)
      (origin : Origin registry.contexts lineage resource) :
      Changes registry
        ((registry.obtain lineage resource).2.keep slot (registry.obtain lineage resource).1)
  | forgets (slot : String) : Changes registry (registry.forget slot)
  | drops : Changes registry registry.dropTable

theorem obtain_mem (registry : Registry) (lineage : List Nat) (resource : Resource) :
    (registry.obtain lineage resource).1 ∈ (registry.obtain lineage resource).2.contexts ∧
      (registry.obtain lineage resource).1.lineage = lineage ∧
        (registry.obtain lineage resource).1.resource = resource := by
  rcases registry.obtain_cases lineage resource with ⟨context, known, line, path, same⟩ | ⟨-, new⟩
  · rw [same]
    exact ⟨known, line, path⟩
  · rw [new]
    exact ⟨List.mem_append_right _ (List.mem_singleton_self _), rfl, rfl⟩

namespace Changes

variable {after : Registry}

theorem proper (changes : registry.Changes after) (proper : registry.Proper) : after.Proper := by
  cases changes with
  | stays => exact proper
  | keeps slot origin => exact (proper.obtain origin).keep slot (obtain_mem registry _ _).1
  | forgets slot => exact proper.forget slot
  | drops => exact proper.dropTable

/-- Contexts are not unmade. -/
theorem isPrefix (changes : registry.Changes after) : registry.contexts <+: after.contexts := by
  cases changes with
  | stays | forgets | drops => exact List.prefix_refl _
  | @keeps lineage resource =>
    rcases registry.obtain_cases lineage resource with ⟨_, -, -, -, same⟩ | ⟨-, new⟩
    · rw [same]
      exact List.prefix_refl _
    · rw [new]
      exact List.prefix_append _ _

end Changes

end Registry

namespace Session

variable {session : Session} {command : Command} {slot : String}

/-- The session after these commands. -/
def after (session : Session) (commands : List Command) : Session :=
  commands.foldl (fun session command => (session.run command).session) session

/-- The slot that a command fills and the name that it asks for. A table that is gone cannot be
asked, and neither can a context that is not kept. -/
def asked? (session : Session) : Command → Option (String × Except TextError Resource)
  | .context segment slot =>
      if session.registry.tableAlive then some (slot, Resource.ofSegment segment) else none
  | .rootContext slot =>
      if session.registry.tableAlive then
        some (slot, Resource.ofSegment session.settings.rootName)
      else none
  | .child above segment slot =>
      (session.registry.slots[above]?).map fun context => (slot, context.resource.child segment)
  | _ => none

/-- A call leaves the session but for the table and the handles. -/
theorem exists_manager_perform (session : Session) (txn : Txn) (call : Except Fault Call) :
    ∃ manager, (session.perform txn call).session = { session with manager } := by
  unfold perform
  split
  · exact ⟨session.manager, rfl⟩
  · split
    · exact ⟨session.manager, rfl⟩
    · next manager journal accepted => exact ⟨manager, rfl⟩

theorem registry_perform (session : Session) (txn : Txn) (call : Except Fault Call) :
    (session.perform txn call).session.registry = session.registry := by
  obtain ⟨manager, same⟩ := exists_manager_perform session txn call
  rw [same]

theorem registry_performAt (session : Session) (slot : String) (txn : Txn)
    (call : Resource → Except Fault Call) :
    (session.performAt slot txn call).session.registry = session.registry := by
  unfold performAt withSlot
  split
  · rfl
  · exact registry_perform _ _ _

theorem origin_top {text : String} {resource : Resource} (contexts : List Context)
    (named : Resource.ofSegment text = .ok resource) : Registry.Origin contexts [] resource := by
  obtain ⟨segment, -, rfl⟩ := Segment.map_ofText_eq_ok_iff.mp named
  exact .top segment

theorem origin_child {above : Context} {text : String} {resource : Resource}
    {contexts : List Context} (known : above ∈ contexts)
    (named : above.resource.child text = .ok resource) :
    Registry.Origin contexts (above.number :: above.lineage) resource := by
  obtain ⟨segment, -, rfl⟩ := Segment.map_ofText_eq_ok_iff.mp named
  exact .child known segment

theorem changes_keepIn {lineage : List Nat} {wanted : Except TextError Resource} (slot : String)
    (origin : ∀ resource, wanted = .ok resource →
      Registry.Origin session.registry.contexts lineage resource) :
    session.registry.Changes
      (session.keepIn slot (session.registry.obtain lineage <$> wanted)).session.registry := by
  cases wanted with
  | error problem => exact .stays
  | ok resource => exact .keeps slot (origin resource rfl)

/-- Commands make contexts in their place, empty slots and drop the table. -/
theorem changes_run (proper : session.registry.Proper) (command : Command) :
    session.registry.Changes (session.run command).session.registry := by
  have same {after : Registry} (equal : after = session.registry) : session.registry.Changes after :=
    equal ▸ .stays
  cases command with
  | acquire | exchange | release | promote => exact same (registry_perform _ _ _)
  | acquireAt | promoteAt | releaseAt => exact same (registry_performAt _ _ _ _)
  | modeOf | locksOn | locksHeldBy | queueLength | isWaiting | snapshot | settings => exact .stays
  | describe | modeAt =>
    simp only [run, withSlot]
    split <;> exact .stays
  | sameContext | parentIs =>
    simp only [run, withSlot]
    split
    · exact .stays
    · split <;> exact .stays
  | context segment slot =>
    exact changes_keepIn slot fun resource named => origin_top _ named
  | rootContext slot => exact changes_keepIn slot fun resource named => origin_top _ named
  | child above segment slot =>
    simp only [run, withSlot]
    split
    · exact .stays
    · next context here =>
      exact changes_keepIn slot fun resource named =>
        origin_child (proper.kept above context here) named
  | forget slot => exact .forgets slot
  | dropTable => exact .drops

theorem proper_after (proper : session.registry.Proper) (commands : List Command) :
    (session.after commands).registry.Proper ∧
      session.registry.contexts <+: (session.after commands).registry.contexts := by
  induction commands generalizing session with
  | nil => exact ⟨proper, List.prefix_refl _⟩
  | cons command later ih =>
    have changes := changes_run proper command
    obtain ⟨ended, kept⟩ := ih (changes.proper proper)
    exact ⟨ended, changes.isPrefix.trans kept⟩

/-! ### The table stays -/

/-- The table was not dropped in between, and the settings are the same. -/
structure Stays (before after : Session) : Prop where
  settings : after.settings = before.settings
  table : after.registry.tableAlive = before.registry.tableAlive

namespace Stays

theorem refl (session : Session) : Stays session session := ⟨rfl, rfl⟩

theorem trans {first second third : Session} (once : Stays first second)
    (again : Stays second third) : Stays first third :=
  ⟨again.settings.trans once.settings, again.table.trans once.table⟩

theorem perform (session : Session) (txn : Txn) (call : Except Fault Call) :
    Stays session (session.perform txn call).session := by
  obtain ⟨manager, same⟩ := exists_manager_perform session txn call
  rw [same]
  exact ⟨rfl, rfl⟩

theorem keepIn (session : Session) (slot : String) (lineage : List Nat)
    (wanted : Except TextError Resource) :
    Stays session (session.keepIn slot (session.registry.obtain lineage <$> wanted)).session := by
  cases wanted with
  | error problem => exact .refl session
  | ok resource =>
    refine ⟨rfl, ?_⟩
    change (session.registry.obtain lineage resource).2.tableAlive = _
    unfold Registry.obtain
    split <;> rfl

theorem withSlot {use : Context → Answer} (kept : ∀ context, Stays session (use context).session) :
    Stays session (session.withSlot slot use).session := by
  unfold Session.withSlot
  split
  · exact .refl session
  · exact kept _

/-- Only one command drops the table, and none changes the settings. -/
theorem run (session : Session) (other : command ≠ .dropTable) :
    Stays session (session.run command).session := by
  cases command with
  | acquire | exchange | release | promote => exact perform _ _ _
  | acquireAt | promoteAt | releaseAt => exact withSlot fun _ => perform _ _ _
  | context | rootContext => exact keepIn _ _ _ _
  | child => exact withSlot fun _ => keepIn _ _ _ _
  | describe | modeAt => exact withSlot fun _ => refl _
  | sameContext | parentIs => exact withSlot fun _ => withSlot fun _ => refl _
  | modeOf | locksOn | locksHeldBy | queueLength | isWaiting | snapshot | settings => exact refl _
  | forget => exact ⟨rfl, rfl⟩
  | dropTable => contradiction

theorem after (session : Session) {commands : List Command}
    (undropped : Command.dropTable ∉ commands) : Stays session (session.after commands) := by
  induction commands generalizing session with
  | nil => exact .refl session
  | cons command later ih =>
    rw [List.mem_cons, not_or] at undropped
    exact (run session (Ne.symm undropped.1)).trans (ih _ undropped.2)

end Stays

/-- A table is gone just if one of the commands dropped it, and nothing brings it back. -/
theorem tableAlive_after_eq_false_iff (session : Session) (commands : List Command) :
    (session.after commands).registry.tableAlive = false ↔
      session.registry.tableAlive = false ∨ Command.dropTable ∈ commands := by
  induction commands generalizing session with
  | nil =>
    rw [or_iff_left List.not_mem_nil]
    rfl
  | cons command later ih =>
    refine (ih (session.run command).session).trans ?_
    by_cases drops : command = .dropTable
    · subst drops
      exact iff_of_true (.inl rfl) (.inr List.mem_cons_self)
    · rw [(Stays.run session drops).table, List.mem_cons, or_iff_right (Ne.symm drops)]

/-! ### Asking for contexts -/

/-- What is asked for is looked up among the contexts of one that lives, or of the living table. -/
theorem run_asked {wanted : Except TextError Resource}
    (asks : session.asked? command = some (slot, wanted)) : ∃ lineage,
      session.run command = session.keepIn slot (session.registry.obtain lineage <$> wanted) ∧
      ∀ context ∈ session.registry.contexts, context.lineage = lineage →
        session.registry.Lives context := by
  cases command with
  | context | rootContext =>
    simp only [asked?] at asks
    split at asks
    · next table =>
      cases asks
      exact ⟨[], rfl, fun context known root => .top known root table⟩
    · cases asks
  | child above segment place =>
    obtain ⟨owner, here, same⟩ := Option.map_eq_some_iff.mp asks
    cases same
    refine ⟨owner.number :: owner.lineage, ?_, fun context known made =>
      .child known made (.kept here)⟩
    simp only [run, withSlot, here]
    rfl
  | _ => cases asks

theorem asked_error {problem : TextError}
    (asks : session.asked? command = some (slot, .error problem)) :
    session.run command = { session, reply := .error problem.fault } := by
  obtain ⟨lineage, result, -⟩ := run_asked asks
  exact result

theorem asked_ok {name : Resource}
    (asks : session.asked? command = some (slot, .ok name)) :
    ∃ context ∈ (session.run command).session.registry.contexts,
      (session.run command).session.registry.slots[slot]? = some context ∧
      (session.run command).reply = .ok (.named name) ∧ context.resource = name ∧
      (context ∈ session.registry.contexts → session.registry.Lives context) := by
  obtain ⟨lineage, result, lives⟩ := run_asked asks
  obtain ⟨known, line, named⟩ := session.registry.obtain_mem lineage name
  have result : session.run command = session.keepIn slot (.ok (session.registry.obtain lineage name)) :=
    result
  refine ⟨(session.registry.obtain lineage name).1, ?_, ?_, ?_, named, fun before =>
    lives _ before line⟩
  · rw [result]
    exact known
  · rw [result]
    simp [keepIn, Registry.keep]
  · rw [result]
    exact congrArg (fun path => Except.ok (Reply.named path)) named

/-- Asking leads to a context that is known already just if it has the name that is asked for. -/
theorem asked_again (proper : session.registry.Proper) {context : Context}
    (known : context ∈ session.registry.contexts) {name : Resource}
    (asks : session.asked? command = some (slot, .ok name)) :
    ∃ found, (session.run command).session.registry.slots[slot]? = some found ∧
      (found.number = context.number ↔ name = context.resource) := by
  obtain ⟨found, there, filled, -, called, -⟩ := asked_ok asks
  have changes := changes_run proper command
  have still : context ∈ (session.run command).session.registry.contexts :=
    changes.isPrefix.subset known
  refine ⟨found, filled, ?_⟩
  constructor
  · intro same
    rw [← called, (changes.proper proper).number_inj there still same]
  · intro same
    rw [(changes.proper proper).unique there still (called.trans same)]

end Session

/-- At every point of a session a name belongs to one context, which is never unmade. Asking gives
the context of the name that is asked for, now and later, or changes nothing if the name is not
well-formed. The table is there until a command drops it. Meanwhile all contexts live and each finds
the one above it. Once the table is gone, a context lives by a slot or by the one above it, and
finds that one while it lives. -/
theorem contexts_named_once (settings : Settings) (commands : List Command) :
    let session : Session := Session.after { settings } commands
    let registry := session.registry
    (∀ first ∈ registry.contexts, ∀ second ∈ registry.contexts,
      first.resource = second.resource → first = second) ∧
    (∀ command slot problem, session.asked? command = some (slot, .error problem) →
      session.run command = { session, reply := .error problem.fault }) ∧
    (∀ command slot name, session.asked? command = some (slot, .ok name) →
      ∃ context ∈ (session.run command).session.registry.contexts,
        (session.run command).session.registry.slots[slot]? = some context ∧
        (session.run command).reply = .ok (.named name) ∧ context.resource = name ∧
        (context ∈ registry.contexts → registry.Lives context) ∧
        ∀ later, let next := (session.run command).session.after later
          context ∈ next.registry.contexts ∧
          ∀ other place path, next.asked? other = some (place, .ok path) →
            ∃ found, (next.run other).session.registry.slots[place]? = some found ∧
              (found.number = context.number ↔ path = name)) ∧
    (∀ context ∈ registry.contexts, registry.isAlive context = true ↔ registry.Lives context) ∧
    (registry.tableAlive = false ↔ Command.dropTable ∈ commands) ∧
    (registry.tableAlive = true → ∀ context ∈ registry.contexts, registry.Lives context ∧
      (registry.parent? context = none ↔ context.resource.depth = 1) ∧
      ∀ above, registry.parent? context = some above ↔
        above ∈ registry.contexts ∧ context.resource.parent? = some above.resource) ∧
    (registry.tableAlive = false → ∀ context ∈ registry.contexts,
      (registry.parent? context = none ↔ context.resource.depth = 1 ∨
        ∃ above ∈ registry.contexts, context.resource.parent? = some above.resource ∧
          ¬ registry.Lives above) ∧
      (registry.Lives context ↔ (∃ slot : String, registry.slots[slot]? = some context) ∨
        ∃ above ∈ registry.contexts, context.resource.parent? = some above.resource ∧
          registry.Lives above)) := by
  intro session registry
  have proper : registry.Proper := (Session.proper_after Registry.Proper.empty commands).1
  refine ⟨?_, ?_, ?_, ?_, ?_, ?_, ?_⟩
  · intro first one second other same
    exact proper.unique one other same
  · intro command slot problem asks
    exact Session.asked_error asks
  · intro command slot name asks
    obtain ⟨context, known, here, reply, named, lives⟩ := Session.asked_ok asks
    refine ⟨context, known, here, reply, named, lives, ?_⟩
    intro later next
    have ran := (Session.changes_run proper command).proper proper
    obtain ⟨ended, kept⟩ := Session.proper_after ran later
    refine ⟨kept.subset known, ?_⟩
    intro other place path asksAgain
    rw [← named]
    exact Session.asked_again ended (kept.subset known) asksAgain
  · intro context known
    exact proper.isAlive_iff_lives known
  · rw [Session.tableAlive_after_eq_false_iff, or_iff_right Bool.true_eq_false.mp]
  · intro table context known
    refine ⟨proper.lives_of_tableAlive table known, ?_, ?_⟩
    · rw [proper.parent?_eq_none_iff known, or_iff_left]
      rintro ⟨above, before, -, gone⟩
      exact gone (proper.lives_of_tableAlive table before)
    · intro above
      rw [proper.parent?_eq_some_iff known]
      constructor
      · rintro ⟨before, name, -⟩
        exact ⟨before, name⟩
      · rintro ⟨before, name⟩
        exact ⟨before, name, proper.lives_of_tableAlive table before⟩
  · intro gone context known
    refine ⟨proper.parent?_eq_none_iff known, ?_⟩
    rw [proper.lives_iff known, gone]
    simp

/-- Without the table, the orders outlive the root, and keep the rows that nobody else keeps. -/
example :
    let session := Session.after {}
      [.rootContext "root", .child "root" "orders" "orders", .child "orders" "rows" "rows",
        .forget "rows", .dropTable, .forget "root", .child "orders" "rows" "again"]
    session.registry.contexts.length = 3 ∧
      (session.registry.slots["orders"]?).map session.registry.parent? = some none ∧
      (session.registry.slots["again"]?).map session.registry.parent? =
        some session.registry.slots["orders"]? := by
  decide +kernel

end LockManager
