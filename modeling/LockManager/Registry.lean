import Std.Data.ExtTreeMap
import LockManager.Resource

/-! Contexts: objects that stand for resources. Asking twice for the same child of the same context
gives the same object. Callers keep contexts in named slots; a context lives as long as the table
does, or as long as it or one of the contexts above it is kept. -/
namespace LockManager
open Std

/-- A number tells contexts apart. The lineage has the numbers of the contexts above, nearest
first. -/
structure Context where
  number : Nat
  resource : Resource
  lineage : List Nat
  deriving DecidableEq

structure Registry where
  contexts : List Context := []
  slots : ExtTreeMap String Context := ∅
  tableAlive : Bool := true

namespace Registry

/-- The context of the resource with the given lineage, made on first use. -/
def obtain (registry : Registry) (lineage : List Nat) (resource : Resource) :
    Context × Registry :=
  match registry.contexts.find? fun context =>
    context.lineage = lineage ∧ context.resource = resource with
  | some context => (context, registry)
  | none =>
      let context : Context := ⟨registry.contexts.length, resource, lineage⟩
      (context, { registry with contexts := registry.contexts ++ [context] })

/-- A top-level context of the table. -/
def top (registry : Registry) (name : String) : Except TextError (Context × Registry) :=
  registry.obtain [] <$> Resource.ofSegment name

/-- The context one step below `above`. -/
def child (registry : Registry) (above : Context) (name : String) :
    Except TextError (Context × Registry) :=
  registry.obtain (above.number :: above.lineage) <$> above.resource.child name

def keep (registry : Registry) (slot : String) (context : Context) : Registry :=
  { registry with slots := registry.slots.insert slot context }

def forget (registry : Registry) (slot : String) : Registry :=
  { registry with slots := registry.slots.erase slot }

/-- The table owned its contexts; the kept ones live on. -/
def dropTable (registry : Registry) : Registry := { registry with tableAlive := false }

def isKept (registry : Registry) (number : Nat) : Bool :=
  registry.slots.toList.any fun slot => slot.2.number = number

def isAlive (registry : Registry) (context : Context) : Bool :=
  registry.tableAlive || (context.number :: context.lineage).any registry.isKept

/-- The enclosing context, while it lives. -/
def parent? (registry : Registry) (context : Context) : Option Context :=
  match context.lineage with
  | [] => none
  | above :: _ =>
      registry.contexts.find? fun other => other.number = above && registry.isAlive other

/-- How many children have been made so far. -/
def childCount (registry : Registry) (context : Context) : Nat :=
  registry.contexts.countP fun other => other.lineage.head? = some context.number

def debugText (registry : Registry) (context : Context) : String :=
  "LockContext \x7b name: " ++ context.resource.debugText ++ ", children: " ++
    toString (registry.childCount context) ++ " \x7d"

end Registry
end LockManager
