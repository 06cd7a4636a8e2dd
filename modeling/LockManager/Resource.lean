import Std.Data.ExtTreeMap
import LockManager.TextError

/-! Names of lockable resources: paths from the root of the hierarchy, written with slashes.
The type holds well-formed paths only, so a written path reads back as the same resource. -/
namespace LockManager
open Std

def separator : Char := '/'

/-- One step of a path. -/
structure Segment where
  text : String
  ne_empty : text ≠ ""
  no_separator : separator ∉ text.toList
  deriving DecidableEq

namespace Segment

def ofText (text : String) : Except TextError Segment :=
  if empty : text = "" then .error .emptySegment
  else if inside : separator ∈ text.toList then .error (.separatorInSegment text)
  else .ok ⟨text, empty, inside⟩

@[ext] theorem ext {a b : Segment} (same : a.text = b.text) : a = b := by
  cases a; cases b; cases same; rfl

end Segment

/-- A path: its first segment and the further steps down. -/
structure Resource where
  root : Segment
  steps : List Segment
  deriving DecidableEq

namespace Resource

def segments (resource : Resource) : List Segment := resource.root :: resource.steps

def names (resource : Resource) : List String := resource.segments.map Segment.text

def depth (resource : Resource) : Nat := resource.segments.length

def leaf (resource : Resource) : Segment := resource.steps.getLast?.getD resource.root

def top (segment : Segment) : Resource := ⟨segment, []⟩

def extend (resource : Resource) (segment : Segment) : Resource :=
  ⟨resource.root, resource.steps ++ [segment]⟩

/-- A top-level resource. -/
def ofSegment (text : String) : Except TextError Resource := top <$> Segment.ofText text

/-- The resource one step below. -/
def child (resource : Resource) (text : String) : Except TextError Resource :=
  resource.extend <$> Segment.ofText text

/-- The resource one step above, unless this one is at the top. -/
def parent? (resource : Resource) : Option Resource :=
  if resource.steps.isEmpty then none else some ⟨resource.root, resource.steps.dropLast⟩

/-- Parent, its parent, and so on to the top. -/
def ancestors (resource : Resource) : List Resource :=
  (List.range resource.steps.length).reverse.map fun kept =>
    ⟨resource.root, resource.steps.take kept⟩

/-- Strictly below in the hierarchy. -/
def below (resource ancestor : Resource) : Bool :=
  ancestor.depth < resource.depth && ancestor.segments.isPrefixOf resource.segments

def chars (resource : Resource) : List Char :=
  [separator].intercalate (resource.segments.map (·.text.toList))

def text (resource : Resource) : String := String.ofList resource.chars

def debugText (resource : Resource) : String := "ResourceName(" ++ resource.text ++ ")"

/-- Reads a whole path; every part between separators has to be a segment. -/
def parse (path : String) : Except TextError Resource :=
  match (path.toList.splitOn separator).mapM fun part => Segment.ofText (String.ofList part) with
  | .ok (root :: steps) => .ok ⟨root, steps⟩
  | _ => .error (.emptySegmentInPath path)

instance : Ord Resource := ⟨fun a b => compare a.names b.names⟩

instance : TransOrd Resource where
  eq_swap := OrientedOrd.eq_swap (α := List String)
  isLE_trans := TransOrd.isLE_trans (α := List String)

theorem names_inj {a b : Resource} (same : a.names = b.names) : a = b := by
  have segments : a.segments = b.segments :=
    (List.map_inj_right fun _ _ texts => Segment.ext texts).mp same
  cases a; cases b; simpa [Resource.segments] using segments

instance : LawfulEqOrd Resource where
  compare_self := ReflOrd.compare_self (α := List String)
  eq_of_compare same := names_inj (LawfulEqOrd.eq_of_compare (α := List String) same)

end Resource
end LockManager
