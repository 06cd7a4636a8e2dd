import Mathlib.Logic.Relation
import LockManager.Proofs.Paths

/-! The hierarchy of resources. One resource is below another if its names go on where those of the
other end. The same order is read off steps up and steps down, and off the written paths, where a
separator has to follow: a name that only begins like another one is not below it. -/
namespace LockManager
namespace Resource

variable {resource ancestor above : Resource}

/-! ### Below is to have further names -/

theorem segments_prefix_iff :
    ancestor.segments <+: resource.segments ↔ ancestor.names <+: resource.names := by
  constructor
  · exact fun start => start.map Segment.text
  · intro start
    obtain ⟨segments, start, same⟩ := List.prefix_map_iff.mp start
    rwa [(List.map_inj_right fun _ _ texts => Segment.ext texts).mp same]

theorem below_iff : resource.below ancestor = true ↔
    ∃ further, further ≠ [] ∧ resource.names = ancestor.names ++ further := by
  rw [below, Bool.and_eq_true, decide_eq_true_eq, List.isPrefixOf_iff_prefix, segments_prefix_iff,
    ← length_names, ← length_names]
  constructor
  · rintro ⟨deeper, further, same⟩
    refine ⟨further, ?_, same.symm⟩
    rintro rfl
    rw [← same, List.append_nil] at deeper
    exact Nat.lt_irrefl _ deeper
  · rintro ⟨further, more, same⟩
    refine ⟨?_, further, same.symm⟩
    rw [same, List.length_append]
    exact Nat.lt_add_of_pos_right (List.length_pos_iff.mpr more)

theorem below_irrefl (resource : Resource) : resource.below resource = false := by
  rw [Bool.eq_false_iff, ne_eq, below_iff]
  rintro ⟨further, more, same⟩
  exact more (List.self_eq_append_right.mp same)

theorem below_trans (lower : resource.below above = true) (higher : above.below ancestor = true) :
    resource.below ancestor = true := by
  obtain ⟨further, more, same⟩ := below_iff.mp lower
  obtain ⟨middle, -, between⟩ := below_iff.mp higher
  refine below_iff.mpr ⟨middle ++ further, by simp [more], ?_⟩
  rw [same, between, List.append_assoc]

/-- Whatever begins with the same names is the same, or one is below the other. -/
theorem comparable_of_below {first second : Resource} (one : resource.below first = true)
    (other : resource.below second = true) :
    first = second ∨ first.below second = true ∨ second.below first = true := by
  have decided {shorter longer : Resource} (start : shorter.names <+: longer.names) :
      shorter = longer ∨ longer.below shorter = true := by
    obtain ⟨further, same⟩ := start
    by_cases level : further = []
    · rw [level, List.append_nil] at same
      exact .inl (names_inj same)
    · exact .inr (below_iff.mpr ⟨further, level, same.symm⟩)
  obtain ⟨rest, -, left⟩ := below_iff.mp one
  obtain ⟨others, -, right⟩ := below_iff.mp other
  rcases List.prefix_or_prefix_of_prefix ⟨rest, left.symm⟩ ⟨others, right.symm⟩ with start | start
  · exact (decided start).imp_right .inr
  · exact (decided start).imp Eq.symm .inl

/-! ### Steps -/

theorem below_extend (resource : Resource) (segment : Segment) :
    (resource.extend segment).below resource = true :=
  below_iff.mpr ⟨[segment.text], by simp, names_extend resource segment⟩

/-- Each further name is one step down. -/
theorem transGen_extend_iff :
    Relation.TransGen (fun upper lower => ∃ segment, extend upper segment = lower) ancestor resource ↔
      resource.below ancestor = true := by
  constructor
  · intro path
    induction path with
    | single step =>
      obtain ⟨segment, rfl⟩ := step
      exact below_extend ancestor segment
    | tail _ step ih =>
      obtain ⟨segment, rfl⟩ := step
      exact below_trans (below_extend _ segment) ih
  · intro lower
    obtain ⟨further, more, same⟩ := below_iff.mp lower
    clear lower
    induction further generalizing ancestor with
    | nil => exact absurd rfl more
    | cons name rest ih =>
      obtain ⟨next, named, others⟩ := names_eq_append_cons_iff.mp same
      obtain ⟨segment, -, step⟩ := names_eq_append_iff.mp named
      by_cases last : rest = []
      · rw [last, List.append_nil] at others
        exact .single ⟨segment, step.trans (names_inj others).symm⟩
      · exact .head ⟨segment, step⟩ (ih last others)

theorem transGen_parent_iff :
    Relation.TransGen (fun lower upper => parent? lower = some upper) resource ancestor ↔
      resource.below ancestor = true := by
  rw [← transGen_extend_iff, ← Relation.transGen_swap]
  simp only [Function.swap_def, parent?_eq_some_iff]

theorem transGen_child_iff :
    Relation.TransGen (fun upper lower => ∃ text, child upper text = .ok lower) ancestor resource ↔
      resource.below ancestor = true := by
  simp only [child_eq_ok_iff, exists_names_eq_append_iff, transGen_extend_iff]

/-- The resources above are those that the names lead through. -/
theorem mem_ancestors_iff : ancestor ∈ resource.ancestors ↔ resource.below ancestor = true := by
  simp only [ancestors, List.mem_map, List.mem_reverse, List.mem_range]
  constructor
  · rintro ⟨kept, deeper, rfl⟩
    refine below_iff.mpr ⟨(resource.steps.drop kept).map Segment.text, ?_, ?_⟩
    · simpa using deeper
    · simp [names, segments]
  · intro lower
    obtain ⟨further, more, same⟩ := below_iff.mp lower
    simp only [names, segments, List.map_cons, List.cons_append, List.cons.injEq] at same
    obtain ⟨root, steps⟩ := same
    have length := congrArg List.length steps
    rw [List.length_append, List.length_map, List.length_map] at length
    have longer := List.length_pos_iff.mpr more
    refine ⟨ancestor.steps.length, by omega, names_inj ?_⟩
    simp [names, segments, root, List.map_take, steps]

/-! ### Written paths -/

/-- Further names are written behind a separator, and only names end at one. -/
theorem startsWith_iff :
    resource.text.startsWith (ancestor.text ++ "/") = true ↔ resource.below ancestor = true := by
  rw [String.startsWith_string_iff, below_iff]
  constructor
  · rintro ⟨rest, same⟩
    have written : resource.chars = ancestor.chars ++ separator :: rest := by
      simpa [text, separator] using same.symm
    have cut := resource.splitOn_chars
    rw [written, List.splitOn_append_cons_self, splitOn_chars] at cut
    obtain ⟨start, further, same, first, others⟩ := List.map_eq_append_iff.mp cut.symm
    refine ⟨further, ?_, ?_⟩
    · rintro rfl
      exact List.splitOn_ne_nil separator rest others.symm
    · rw [same, map_toList_inj.mp first]
  · rintro ⟨further, more, same⟩
    have written : resource.text = ancestor.text ++ "/" ++ "/".intercalate further := by
      rw [text_eq, same, String.intercalate_append_of_ne_nil ancestor.names_ne_nil more, ← text_eq]
    rw [written]
    exact ⟨("/".intercalate further).toList, by simp only [String.toList_append]⟩

end Resource

/-- The hierarchy is one strict order, however it is read: off steps up or steps down, off the list
of the resources above, or off the written paths. What is above a resource is in line. -/
theorem hierarchy_is_one_order :
    (∀ resource ancestor : Resource,
      (resource.below ancestor = true ↔ Relation.TransGen
        (fun lower upper => Resource.parent? lower = some upper) resource ancestor) ∧
      (resource.below ancestor = true ↔ Relation.TransGen
        (fun upper lower => ∃ text, Resource.child upper text = .ok lower) ancestor resource) ∧
      (resource.below ancestor = true ↔ ancestor ∈ resource.ancestors) ∧
      (resource.below ancestor = true ↔
        resource.text.startsWith (ancestor.text ++ "/") = true)) ∧
    (∀ resource : Resource, resource.below resource = false) ∧
    (∀ lowest middle highest : Resource, lowest.below middle = true → middle.below highest = true →
      lowest.below highest = true) ∧
    ∀ resource first second : Resource,
      resource.below first = true → resource.below second = true →
        first = second ∨ first.below second = true ∨ second.below first = true := by
  refine ⟨fun resource ancestor => ⟨?_, ?_, ?_, ?_⟩, Resource.below_irrefl, ?_, ?_⟩
  · exact Resource.transGen_parent_iff.symm
  · exact Resource.transGen_child_iff.symm
  · exact Resource.mem_ancestors_iff.symm
  · exact Resource.startsWith_iff.symm
  · intro lowest middle highest lower higher
    exact Resource.below_trans lower higher
  · intro resource first second one other
    exact Resource.comparable_of_below one other

/-- A name that only begins like another one is not below it. -/
example :
    let orders : Resource := ⟨⟨"database2", by decide, by decide⟩, [⟨"orders", by decide, by decide⟩]⟩
    let database : Resource := .top ⟨"database", by decide, by decide⟩
    database.chars <+: orders.chars ∧ orders.below database = false := by
  decide +kernel

end LockManager
