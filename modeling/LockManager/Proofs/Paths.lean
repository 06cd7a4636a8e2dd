import LockManager.Json.Records

/-! Resources and their paths. A path is cut at its separators, and a resource is written with a
separator between its names. Cutting and writing undo each other wherever no name is empty or has a
separator inside, so a path that can be read is the one way to write its resource. -/
namespace LockManager

/-! ### Cutting at a separator -/

section
variable {α : Type} [BEq α] [LawfulBEq α] {mark first : α} {list : List α}

theorem splitOn_cons_self (mark : α) (list : List α) :
    (mark :: list).splitOn mark = [] :: list.splitOn mark := by
  rw [List.splitOn_cons_eq_if_modifyHead, if_pos (beq_self_eq_true mark)]

/-- Any other element joins the first part. -/
theorem splitOn_cons_of_ne (other : first ≠ mark) (list : List α) : ∃ head rest,
    list.splitOn mark = head :: rest ∧ (first :: list).splitOn mark = (first :: head) :: rest := by
  obtain ⟨head, rest, parts⟩ := List.exists_cons_of_ne_nil (List.splitOn_ne_nil mark list)
  refine ⟨head, rest, parts, ?_⟩
  rw [List.splitOn_cons_eq_if_modifyHead, if_neg (by simpa using other), parts,
    List.modifyHead_cons]

theorem not_mem_of_mem_splitOn {part : List α} (member : part ∈ list.splitOn mark) :
    mark ∉ part := by
  induction list generalizing part with
  | nil =>
    rw [List.splitOn_nil, List.mem_singleton] at member
    simp [member]
  | cons first later ih =>
    by_cases same : first = mark
    · rw [same, splitOn_cons_self] at member
      rcases List.mem_cons.mp member with rfl | member
      · exact List.not_mem_nil
      · exact ih member
    · obtain ⟨head, rest, parts, cut⟩ := splitOn_cons_of_ne same later
      rw [cut] at member
      rw [parts] at ih
      rcases List.mem_cons.mp member with rfl | member
      · simpa [Ne.symm same] using ih List.mem_cons_self
      · exact ih (List.mem_cons_of_mem head member)

theorem head?_splitOn_eq_nil_iff :
    (list.splitOn mark).head? = some [] ↔ list = [] ∨ [mark] <+: list := by
  cases list with
  | nil => simp
  | cons first later =>
    by_cases same : first = mark
    · simp [same, splitOn_cons_self]
    · obtain ⟨head, rest, -, cut⟩ := splitOn_cons_of_ne same later
      simp [cut, Ne.symm same]

theorem nil_mem_splitOn_iff : [] ∈ list.splitOn mark ↔
    (list = [] ∨ [mark] <+: list) ∨ [] ∈ (list.splitOn mark).tail := by
  rw [← head?_splitOn_eq_nil_iff]
  cases list.splitOn mark <;> simp [eq_comm]

/-- A part behind the first is empty if a separator comes last or next to another one. -/
theorem nil_mem_tail_splitOn_iff :
    [] ∈ (list.splitOn mark).tail ↔ [mark] <:+ list ∨ [mark, mark] <:+: list := by
  induction list with
  | nil => simp
  | cons first later ih =>
    rw [List.suffix_cons_iff, List.infix_cons_iff]
    by_cases same : first = mark
    · rw [same, splitOn_cons_self, List.tail_cons, nil_mem_splitOn_iff, ih]
      simp [eq_comm, or_assoc, or_left_comm]
    · obtain ⟨head, rest, parts, cut⟩ := splitOn_cons_of_ne same later
      rw [cut, List.tail_cons]
      rw [parts, List.tail_cons] at ih
      simp [ih, Ne.symm same]

/-- No part is empty just if there is something in front of each separator and behind it. -/
theorem nil_not_mem_splitOn_iff :
    [] ∉ list.splitOn mark ↔
      list ≠ [] ∧ ¬ [mark] <+: list ∧ ¬ [mark] <:+ list ∧ ¬ [mark, mark] <:+: list := by
  rw [nil_mem_splitOn_iff, nil_mem_tail_splitOn_iff]
  simp only [not_or, ne_eq, and_assoc]

/-- The separators in a written list are those of its parts and one between any two of them. -/
theorem count_intercalate (mark : α) (part : List α) (parts : List (List α)) :
    ([mark].intercalate (part :: parts)).count mark =
      (part :: parts).flatten.count mark + parts.length := by
  induction parts generalizing part with
  | nil => simp
  | cons next later ih =>
    rw [List.intercalate_cons_cons, List.count_append, List.count_append, ih]
    simp only [List.flatten_cons, List.count_append, List.count_singleton_self, List.length_cons]
    omega

theorem count_flatten_eq_zero_iff {parts : List (List α)} :
    parts.flatten.count mark = 0 ↔ ∀ part ∈ parts, mark ∉ part := by
  simp [List.count_eq_zero]

/-- Where no part has a separator, the parts are found again by their number. -/
theorem eq_of_intercalate {parts others : List (List α)} (clean : ∀ part ∈ parts, mark ∉ part)
    (same : [mark].intercalate others = [mark].intercalate parts)
    (length : others.length = parts.length) : others = parts := by
  cases parts with
  | nil => exact List.length_eq_zero_iff.mp length
  | cons part later =>
    cases others with
    | nil => contradiction
    | cons other rest =>
      have counts := congrArg (List.count mark) same
      rw [count_intercalate, count_intercalate, count_flatten_eq_zero_iff.mpr clean] at counts
      have neat : ∀ known ∈ other :: rest, mark ∉ known := by
        rw [← count_flatten_eq_zero_iff]
        rw [List.length_cons, List.length_cons] at length
        omega
      rw [← List.splitOn_intercalate mark neat (List.cons_ne_nil _ _), same,
        List.splitOn_intercalate mark clean (List.cons_ne_nil _ _)]

end

/-! ### Reading what is written -/

/-- What goes on after a first part is successful if both are. -/
theorem bind_eq_ok_iff {α β ε : Type} {first : Except ε α} {next : α → Except ε β} {result : β} :
    first >>= next = .ok result ↔ ∃ value, first = .ok value ∧ next value = .ok result := by
  cases first with
  | error problem =>
    constructor
    · intro done
      cases done
    · rintro ⟨value, done, -⟩
      cases done
  | ok value =>
    constructor
    · exact fun done => ⟨value, rfl, done⟩
    · rintro ⟨_, ⟨⟩, done⟩
      exact done

/-- Reading item by item succeeds just on what is written item by item, if so it is with each. -/
theorem mapM_eq_ok_iff {α β ε : Type} {items : List α} {values : List β} {read : α → Except ε β}
    {write : β → α} (reads : ∀ item value, read item = .ok value ↔ write value = item) :
    items.mapM read = .ok values ↔ values.map write = items := by
  induction items generalizing values with
  | nil => simp [pure, Except.pure, eq_comm]
  | cons item later ih =>
    simp only [List.mapM_cons, bind_eq_ok_iff, reads, ih, List.map_eq_cons_iff]
    constructor
    · rintro ⟨value, first, rest, others, ⟨⟩⟩
      exact ⟨value, rest, rfl, first, others⟩
    · rintro ⟨value, rest, rfl, first, others⟩
      exact ⟨value, first, rest, others, rfl⟩

namespace Segment

variable {text : String} {segment : Segment}

theorem ofText_eq_ok_iff : ofText text = .ok segment ↔ segment.text = text := by
  constructor
  · intro read
    unfold ofText at read
    split at read
    · contradiction
    · split at read <;> cases read
      rfl
  · rintro rfl
    rw [ofText, dif_neg segment.ne_empty, dif_neg segment.no_separator]

/-- What is made of a text is made of the segment with that text. -/
theorem map_ofText_eq_ok_iff {make : Segment → Resource} {resource : Resource} :
    make <$> ofText text = .ok resource ↔ ∃ segment, segment.text = text ∧ make segment = resource := by
  rw [map_eq_pure_bind, bind_eq_ok_iff]
  simp only [ofText_eq_ok_iff, pure, Except.pure, Except.ok.injEq]

end Segment

namespace Resource

variable {resource above : Resource} {text path : String}

/-! ### What each way to a resource does to the names -/

theorem eq_iff_names : resource = above ↔ resource.names = above.names :=
  ⟨congrArg names, names_inj⟩

@[simp] theorem names_top (segment : Segment) : (top segment).names = [segment.text] := rfl

@[simp] theorem names_extend (resource : Resource) (segment : Segment) :
    (resource.extend segment).names = resource.names ++ [segment.text] := by
  simp [names, segments, extend]

@[simp] theorem length_names (resource : Resource) : resource.names.length = resource.depth :=
  List.length_map _

theorem names_ne_nil (resource : Resource) : resource.names ≠ [] :=
  List.cons_ne_nil _ _

theorem exists_segment {name : String} (member : name ∈ resource.names) :
    ∃ segment : Segment, segment.text = name := by
  obtain ⟨segment, -, same⟩ := List.mem_map.mp member
  exact ⟨segment, same⟩

/-- Any list of non-empty texts without a separator has the names of a resource, if it is not
empty. -/
theorem exists_names_iff {texts : List String} : (∃ resource : Resource, resource.names = texts) ↔
    texts ≠ [] ∧ ∀ text ∈ texts, text ≠ "" ∧ separator ∉ text.toList := by
  constructor
  · rintro ⟨resource, rfl⟩
    refine ⟨resource.names_ne_nil, fun name member => ?_⟩
    obtain ⟨segment, rfl⟩ := exists_segment member
    exact ⟨segment.ne_empty, segment.no_separator⟩
  · rintro ⟨filled, clean⟩
    obtain ⟨first, later, rfl⟩ := List.exists_cons_of_ne_nil filled
    obtain ⟨⟨something, whole⟩, others⟩ := List.forall_mem_cons.mp clean
    refine ⟨⟨⟨first, something, whole⟩,
      later.pmap (fun text clean => ⟨text, clean.1, clean.2⟩) others⟩, ?_⟩
    simp [names, segments, List.map_pmap]

theorem ofSegment_eq_ok_iff : ofSegment text = .ok resource ↔ resource.names = [text] := by
  rw [ofSegment, Segment.map_ofText_eq_ok_iff]
  constructor
  · rintro ⟨segment, rfl, rfl⟩
    exact names_top segment
  · intro named
    obtain ⟨segment, rfl⟩ := exists_segment (named ▸ List.mem_singleton_self text)
    exact ⟨segment, rfl, names_inj named.symm⟩

/-- One more name is one step down. -/
theorem names_eq_append_iff : resource.names = above.names ++ [text] ↔
    ∃ segment : Segment, segment.text = text ∧ above.extend segment = resource := by
  constructor
  · intro named
    have member : text ∈ resource.names := by simp [named]
    obtain ⟨segment, rfl⟩ := exists_segment member
    exact ⟨segment, rfl, names_inj ((names_extend above segment).trans named.symm)⟩
  · rintro ⟨segment, rfl, rfl⟩
    exact names_extend above segment

theorem exists_names_eq_append_iff : (∃ text, resource.names = above.names ++ [text]) ↔
    ∃ segment, above.extend segment = resource := by
  simp only [names_eq_append_iff]
  constructor
  · rintro ⟨-, segment, -, below⟩
    exact ⟨segment, below⟩
  · rintro ⟨segment, below⟩
    exact ⟨segment.text, segment, rfl, below⟩

/-- Further names lead through the resource with the first of them. -/
theorem names_eq_append_cons_iff {further : List String} :
    resource.names = above.names ++ text :: further ↔
      ∃ next : Resource, next.names = above.names ++ [text] ∧
        resource.names = next.names ++ further := by
  constructor
  · intro named
    have member : text ∈ resource.names := by simp [named]
    obtain ⟨segment, rfl⟩ := exists_segment member
    refine ⟨above.extend segment, names_extend above segment, ?_⟩
    rw [names_extend, named, List.append_assoc, List.singleton_append]
  · rintro ⟨next, first, others⟩
    rw [others, first, List.append_assoc, List.singleton_append]

theorem child_eq_ok_iff :
    above.child text = .ok resource ↔ resource.names = above.names ++ [text] := by
  rw [child, Segment.map_ofText_eq_ok_iff, names_eq_append_iff]

theorem parent?_top (segment : Segment) : (top segment).parent? = none := rfl

theorem parent?_extend (resource : Resource) (segment : Segment) :
    (resource.extend segment).parent? = some resource := by
  simp [parent?, extend]

/-- The one above is the one that this one is a step below. -/
theorem parent?_eq_some_iff :
    resource.parent? = some above ↔ ∃ segment, above.extend segment = resource := by
  constructor
  · intro parent
    unfold parent? at parent
    split at parent
    · cases parent
    · next deeper =>
      cases parent
      have deeper : resource.steps ≠ [] := by simpa using deeper
      refine ⟨resource.steps.getLast deeper, ?_⟩
      rw [extend, List.dropLast_concat_getLast deeper]
  · rintro ⟨segment, rfl⟩
    exact parent?_extend above segment

theorem depth_lt_of_parent? (parent : resource.parent? = some above) :
    above.depth < resource.depth := by
  obtain ⟨segment, rfl⟩ := parent?_eq_some_iff.mp parent
  rw [← length_names, ← length_names, names_extend, List.length_append]
  exact Nat.lt_succ_self _

theorem parent?_eq_none_iff : resource.parent? = none ↔ resource.depth = 1 := by
  simp [parent?, depth, segments]

/-! ### Writing and reading -/

/-- Texts with a separator between any two of them. -/
theorem toList_intercalate (texts : List String) :
    ("/".intercalate texts).toList = [separator].intercalate (texts.map String.toList) := by
  rw [String.toList_intercalate]
  rfl

theorem map_toList_inj {texts others : List String} :
    texts.map String.toList = others.map String.toList ↔ texts = others :=
  List.map_inj_right fun _ _ => String.toList_inj.mp

theorem text_eq (resource : Resource) : resource.text = "/".intercalate resource.names := by
  rw [← String.toList_inj, toList_intercalate, text, String.toList_ofList, chars, names,
    List.map_map]
  rfl

/-- No name of a resource has a separator. -/
theorem not_mem_name {part : List Char} (member : part ∈ resource.names.map String.toList) :
    separator ∉ part := by
  obtain ⟨name, known, rfl⟩ := List.mem_map.mp member
  obtain ⟨segment, rfl⟩ := exists_segment known
  exact segment.no_separator

/-- A written path falls apart into the names of its segments. -/
theorem splitOn_chars (resource : Resource) :
    resource.chars.splitOn separator = resource.names.map String.toList := by
  have written : resource.chars = [separator].intercalate (resource.names.map String.toList) := by
    rw [chars, names, List.map_map]
    rfl
  rw [written]
  apply List.splitOn_intercalate _ fun _ member => not_mem_name member
  simpa using resource.names_ne_nil

/-- A path is read as the resource that is written like that. -/
theorem parse_eq_ok_iff : parse path = .ok resource ↔ resource.text = path := by
  have reads : ∀ part segment,
      Segment.ofText (String.ofList part) = .ok segment ↔ segment.text.toList = part := by
    intro part segment
    rw [Segment.ofText_eq_ok_iff, ← String.toList_inj, String.toList_ofList]
  constructor
  · intro read
    unfold parse at read
    split at read
    · next root steps parts =>
      cases read
      have cut := (mapM_eq_ok_iff reads).mp parts
      rw [← String.toList_inj, text, String.toList_ofList, chars, segments, cut,
        List.intercalate_splitOn]
    · contradiction
  · rintro rfl
    have cut : resource.segments.map (·.text.toList) = resource.text.toList.splitOn separator := by
      rw [text, String.toList_ofList, splitOn_chars, names, List.map_map]
      rfl
    rw [parse, (mapM_eq_ok_iff reads).mpr cut]
    rfl

theorem text_inj (same : resource.text = above.text) : resource = above := by
  have read := parse_eq_ok_iff.mpr same
  rw [parse_eq_ok_iff.mpr rfl] at read
  exact (Except.ok.inj read).symm

/-- A path can be read just if all that it falls apart into can be names. -/
theorem exists_parse_iff : (∃ resource, parse path = .ok resource) ↔
    path ≠ "" ∧ ¬ [separator] <+: path.toList ∧ ¬ [separator] <:+ path.toList ∧
      ¬ [separator, separator] <:+: path.toList := by
  have something : path ≠ "" ↔ path.toList ≠ [] := by simp
  rw [something, ← nil_not_mem_splitOn_iff]
  constructor
  · rintro ⟨resource, read⟩ empty
    obtain rfl := parse_eq_ok_iff.mp read
    rw [text, String.toList_ofList, splitOn_chars] at empty
    obtain ⟨name, member, nothing⟩ := List.mem_map.mp empty
    obtain ⟨segment, rfl⟩ := exists_segment member
    exact segment.ne_empty (by simpa using nothing)
  · intro filled
    let texts := (path.toList.splitOn separator).map String.ofList
    have clean : ∀ text ∈ texts, text ≠ "" ∧ separator ∉ text.toList := by
      intro text member
      obtain ⟨part, known, rfl⟩ := List.mem_map.mp member
      rw [String.toList_ofList]
      refine ⟨fun nothing => ?_, not_mem_of_mem_splitOn known⟩
      have nothing : part = [] := by simpa using nothing
      exact filled (nothing ▸ known)
    have nonempty : texts ≠ [] := by simp [texts, List.splitOn_ne_nil]
    obtain ⟨resource, named⟩ := exists_names_iff.mpr ⟨nonempty, clean⟩
    refine ⟨resource, parse_eq_ok_iff.mpr ?_⟩
    rw [text_eq, named, ← String.toList_inj, toList_intercalate]
    simp [texts, Function.comp_def, List.intercalate_splitOn]

/-! ### Going down from the top -/

/-- The resource with this name at the top and then one step down for each further name. -/
def descend (first : String) (later : List String) : Except TextError Resource :=
  ofSegment first >>= later.foldlM child

theorem foldlM_child_eq_ok_iff {later : List String} :
    later.foldlM child above = .ok resource ↔ resource.names = above.names ++ later := by
  induction later generalizing above with
  | nil => simp [pure, Except.pure, eq_iff_names, eq_comm]
  | cons text rest ih =>
    rw [List.foldlM_cons, bind_eq_ok_iff, names_eq_append_cons_iff]
    simp only [child_eq_ok_iff, ih]

theorem descend_eq_ok_iff {first : String} {later : List String} :
    descend first later = .ok resource ↔ resource.names = first :: later := by
  rw [descend, bind_eq_ok_iff]
  simp only [ofSegment_eq_ok_iff, foldlM_child_eq_ok_iff]
  constructor
  · rintro ⟨top, start, rest⟩
    rw [rest, start, List.singleton_append]
  · intro named
    have member : first ∈ resource.names := by simp [named]
    obtain ⟨segment, rfl⟩ := exists_segment member
    exact ⟨top segment, rfl, named⟩

/-- Texts that are written as one path are its names if it has as many. -/
theorem parse_intercalate_iff {texts : List String} :
    parse ("/".intercalate texts) = .ok resource ∧ resource.depth = texts.length ↔
      resource.names = texts := by
  rw [parse_eq_ok_iff, text_eq]
  constructor
  · rintro ⟨same, count⟩
    have written := congrArg String.toList same
    rw [toList_intercalate, toList_intercalate] at written
    have parts := eq_of_intercalate (fun _ member => not_mem_name member) written.symm
      (by simpa using count.symm)
    exact (map_toList_inj.mp parts).symm
  · rintro rfl
    exact ⟨rfl, (length_names resource).symm⟩

/-- A decoded name is a path in a text, and no other value is a name. -/
theorem ofJson?_eq_some_iff {json : Json} :
    ofJson? json = some resource ↔ json = .text resource.text := by
  cases json with
  | text path =>
    have decoded : ofJson? (.text path) = some resource ↔ parse path = .ok resource := by
      change (parse path).toOption = some resource ↔ _
      cases parse path <;> simp [Except.toOption]
    rw [decoded, parse_eq_ok_iff, Json.text.injEq, eq_comm]
  | null | truth | integer | number | list | object => simp [ofJson?, Json.text?]

end Resource

/-- Resources and the paths that can be read name each other. The names of resources are the
non-empty lists of non-empty texts without a separator, and however one comes to a resource, its
names tell from what. A path can be read just if it is not empty, no separator comes first or last,
and no two of them meet. To read texts that are written as one path is to take them as names one
by one, if the path has as many. -/
theorem paths_name_resources :
    (∀ texts : List String, (∃ resource : Resource, resource.names = texts) ↔
      texts ≠ [] ∧ ∀ text ∈ texts, text ≠ "" ∧ separator ∉ text.toList) ∧
    (∀ resource : Resource,
      (∀ text, Resource.ofSegment text = .ok resource ↔ resource.names = [text]) ∧
      (∀ above text, Resource.child above text = .ok resource ↔
        resource.names = above.names ++ [text]) ∧
      (∀ below, Resource.parent? below = some resource ↔
        ∃ text, below.names = resource.names ++ [text]) ∧
      (∀ path, Resource.parse path = .ok resource ↔ resource.text = path) ∧
      ∀ json, Resource.ofJson? json = some resource ↔ json = .text resource.text) ∧
    (∀ path, (∃ resource, Resource.parse path = .ok resource) ↔
      path ≠ "" ∧ ¬ [separator] <+: path.toList ∧ ¬ [separator] <:+ path.toList ∧
        ¬ [separator, separator] <:+: path.toList) ∧
    ∀ first later resource, Resource.descend first later = .ok resource ↔
      Resource.parse ("/".intercalate (first :: later)) = .ok resource ∧
        resource.depth = (first :: later).length := by
  refine ⟨fun texts => Resource.exists_names_iff, fun resource => ⟨?_, ?_, ?_, ?_, ?_⟩, ?_, ?_⟩
  · intro text
    exact Resource.ofSegment_eq_ok_iff
  · intro above text
    exact Resource.child_eq_ok_iff
  · intro below
    rw [Resource.parent?_eq_some_iff, Resource.exists_names_eq_append_iff]
  · intro path
    exact Resource.parse_eq_ok_iff
  · intro json
    exact Resource.ofJson?_eq_some_iff
  · intro path
    exact Resource.exists_parse_iff
  · intro first later resource
    rw [Resource.descend_eq_ok_iff, Resource.parse_intercalate_iff]

end LockManager
